import Hbackup.Sftp.Filesystem
import Hbackup.Sftp.Equiv.Client
import Mathlib.Data.List.Nodup

/-!
# The client's bookkeeping

`Books` relates the requests in flight, the reply map and the ignored set to the ids that somebody
in the client still waits for: a request in flight is either waited for or ignored, and every
reply in the map is waited for.  Four steps of the client break this: ignoring an id whose reply has
arrived already, releasing a file whose queues are not empty, collecting the reply to the first
write for another one, and giving out an id that is in use.  In a run without such a step nothing
is left behind (`performAll_leaves_nothing`).
-/

namespace Hbackup.Sftp

open ProgramLogic List

variable {server : Nat → Request → Reply}

/-! ### The books -/

/-- Not one of the steps that upset the books. -/
def Event.Harmless : Event → Prop
  | .newid _ inUse => inUse = false
  | .ignored _ _ arrived => arrived = false
  | .reaped id front => id = front
  | .released left => left = []
  | .sent _ | .delivered _ | .dropped _ => True

instance : DecidablePred Event.Harmless
  | .newid _ inUse => inferInstanceAs (Decidable (inUse = false))
  | .ignored _ _ arrived => inferInstanceAs (Decidable (arrived = false))
  | .reaped id front => inferInstanceAs (Decidable (id = front))
  | .released left => inferInstanceAs (Decidable (left = []))
  | .sent _ | .delivered _ | .dropped _ => inferInstanceAs (Decidable True)

def Harmless (log : List Event) : Prop := ∀ e ∈ log, e.Harmless

theorem Harmless.tail {e : Event} {log : List Event} (h : Harmless (e :: log)) : Harmless log :=
  fun e' he' => h e' (mem_cons_of_mem e he')

theorem Harmless.right {l log : List Event} (h : Harmless (l ++ log)) : Harmless log :=
  fun e he => h e (mem_append_right l he)

/-- The requests in flight, the replies and the ignored ids, when the ids `own` are waited for. -/
structure Books (own : List UInt32) (outstanding : List Pending)
    (replies : List (UInt32 × Nat × Reply)) (ignored : List UInt32) : Prop where
  own_nodup : own.Nodup
  ids_nodup : (outstanding.map Pending.id).Nodup
  ignored_nodup : ignored.Nodup
  own_sent : ∀ id ∈ own, id ∈ outstanding.map Pending.id ∨ id ∈ replies.map Prod.fst
  sent : ∀ id ∈ outstanding.map Pending.id, id ∈ ignored ∨ id ∈ own
  arrived : ∀ id ∈ replies.map Prod.fst, id ∈ own ∧ id ∉ outstanding.map Pending.id
  ignored_sent : ∀ id ∈ ignored, id ∈ outstanding.map Pending.id ∧ id ∉ own

theorem Books.perm {own own' : List UInt32} {outstanding : List Pending}
    {replies : List (UInt32 × Nat × Reply)} {ignored : List UInt32} (hp : own.Perm own')
    (h : Books own outstanding replies ignored) : Books own' outstanding replies ignored where
  own_nodup := hp.nodup_iff.mp h.own_nodup
  ids_nodup := h.ids_nodup
  ignored_nodup := h.ignored_nodup
  own_sent id hid := h.own_sent id (hp.mem_iff.mpr hid)
  sent id hid := (h.sent id hid).imp_right hp.mem_iff.mp
  arrived id hid := ⟨hp.mem_iff.mp (h.arrived id hid).1, (h.arrived id hid).2⟩
  ignored_sent id hid := ⟨(h.ignored_sent id hid).1, fun ho =>
    (h.ignored_sent id hid).2 (hp.mem_iff.mpr ho)⟩

/-- The books are in order, if nothing has upset them. -/
def Kept (own : List UInt32) (c : Client) : Prop :=
  Harmless c.log → Books own c.outstanding c.replies c.ignored

theorem Kept.perm (own : List UInt32) {own' : List UInt32} {c : Client} (h : Kept own c) (hp : own.Perm own') :
    Kept own' c := fun hl => (h hl).perm hp

/-- Nothing is on the way under `id`. -/
def Unused (id : UInt32) (c : Client) : Prop :=
  Harmless c.log →
    id ∉ c.outstanding.map Pending.id ∧ id ∉ c.replies.map Prod.fst ∧ id ∉ c.ignored

/-- What stays as it is while the client waits. -/
structure Waits (c c' : Client) : Prop where
  files : c'.files = c.files
  existence_inflight : c'.existence_inflight = c.existence_inflight

theorem Waits.rfl {c : Client} : Waits c c := ⟨Eq.refl _, Eq.refl _⟩

theorem Waits.trans {c c' c'' : Client} (h : Waits c c') (h' : Waits c' c'') : Waits c c'' :=
  ⟨h'.files.trans h.files, h'.existence_inflight.trans h.existence_inflight⟩

theorem Waits.owned {c c' : Client} (h : Waits c c') : c'.owned = c.owned := by
  rw [Client.owned, Client.owned, h.files, h.existence_inflight]

/-! ### Replies arrive -/

theorem Waits.receives (c : Client) : Receives server (Waits c) where
  passes _ _ h := ⟨h.files, h.existence_inflight⟩
  files c' p schedule h _ := by
    rw [stash, wp_bind, wp_get]
    split_ifs <;> exact ⟨h.files, h.existence_inflight⟩

/-- The ids of the requests in flight when one of them has been answered. -/
theorem mem_ids_erase {outstanding : List Pending} {p : Pending}
    (hnd : (outstanding.map Pending.id).Nodup) (hp : p ∈ outstanding) (id : UInt32) :
    id ∈ (outstanding.erase p).map Pending.id ↔
      id ∈ outstanding.map Pending.id ∧ id ≠ p.id := by
  have hmem : ∀ q, q ∈ outstanding.erase p ↔ q ≠ p ∧ q ∈ outstanding :=
    fun q => (Nodup.of_map _ hnd).mem_erase_iff
  constructor
  · intro hid
    obtain ⟨q, hq, rfl⟩ := mem_map.mp hid
    rw [hmem] at hq
    exact ⟨mem_map_of_mem hq.2, fun he => hq.1 (inj_on_of_nodup_map hnd hq.2 hp he)⟩
  · rintro ⟨hid, hne⟩
    obtain ⟨q, hq, rfl⟩ := mem_map.mp hid
    exact mem_map_of_mem ((hmem q).mpr ⟨fun he => hne (he ▸ Eq.refl _), hq⟩)

theorem mem_otherReplies {c : Client} {id id' : UInt32} :
    id' ∈ (c.otherReplies id).map Prod.fst ↔ id' ∈ c.replies.map Prod.fst ∧ id' ≠ id := by
  constructor
  · intro h
    obtain ⟨r, hr, rfl⟩ := mem_map.mp h
    rw [Client.otherReplies, mem_filter, decide_eq_true_eq] at hr
    exact ⟨mem_map_of_mem hr.1, hr.2⟩
  · rintro ⟨h, hne⟩
    obtain ⟨r, hr, rfl⟩ := mem_map.mp h
    exact mem_map_of_mem (mem_filter.mpr ⟨hr, decide_eq_true hne⟩)

theorem Unused.receives (id : UInt32) : Receives server (Unused id) where
  passes _ _ h := h
  files c p schedule h hp := by
    have herase : ∀ {q}, q ∈ (c.outstanding.erase p).map Pending.id →
        q ∈ c.outstanding.map Pending.id := fun hq => (erase_sublist.map Pending.id).mem hq
    rw [stash, wp_bind, wp_get]
    split_ifs with hig
    · intro hl
      obtain ⟨h1, h2, h3⟩ := h hl.tail
      exact ⟨fun hm => h1 (herase hm), h2, fun hm => h3 (mem_of_mem_erase hm)⟩
    · intro hl
      obtain ⟨h1, h2, h3⟩ := h hl.right
      refine ⟨fun hm => h1 (herase hm), fun hm => ?_, h3⟩
      rcases mem_cons.mp hm with rfl | hm
      · exact h1 (mem_map_of_mem hp)
      · exact h2 (mem_otherReplies.mp hm).1

/-- A reply that arrives settles one of the books' items. -/
theorem Kept.receives (own : List UInt32) : Receives server (Kept own) where
  passes _ _ h := h
  files c p schedule h hp := by
    rw [stash, wp_bind, wp_get]
    split_ifs with hig
    · -- a reply that nobody waits for
      intro hl
      have h := h hl.tail
      have hids := mem_ids_erase h.ids_nodup hp
      have hown : p.id ∉ own := (h.ignored_sent p.id hig).2
      refine ⟨h.own_nodup, (erase_sublist.map Pending.id).nodup h.ids_nodup,
        h.ignored_nodup.erase _, fun id hid => ?_, fun id hid => ?_, fun id hid => ?_,
        fun id hid => ?_⟩
      · refine (h.own_sent id hid).imp_left fun hs => (hids id).mpr ⟨hs, ?_⟩
        exact fun he => hown (he ▸ hid)
      · obtain ⟨hid, hne⟩ := (hids id).mp hid
        exact (h.sent id hid).imp_left fun hs => (mem_erase_of_ne hne).mpr hs
      · exact ⟨(h.arrived id hid).1, fun hm => (h.arrived id hid).2 ((hids id).mp hm).1⟩
      · obtain ⟨hne, hid⟩ := h.ignored_nodup.mem_erase_iff.mp hid
        exact ⟨(hids id).mpr ⟨(h.ignored_sent id hid).1, hne⟩, (h.ignored_sent id hid).2⟩
    · -- a reply that somebody waits for
      intro hl
      have h := h hl.right
      have hids := mem_ids_erase h.ids_nodup hp
      have hown : p.id ∈ own := (h.sent p.id (mem_map_of_mem hp)).resolve_left hig
      refine ⟨h.own_nodup, (erase_sublist.map Pending.id).nodup h.ids_nodup, h.ignored_nodup,
        fun id hid => ?_, fun id hid => ?_, fun id hid => ?_, fun id hid => ?_⟩
      · by_cases he : id = p.id
        · exact .inr (mem_cons.mpr (.inl he))
        · exact (h.own_sent id hid).imp (fun hs => (hids id).mpr ⟨hs, he⟩)
            fun hr => mem_cons_of_mem _ (mem_otherReplies.mpr ⟨hr, he⟩)
      · exact h.sent id ((hids id).mp hid).1
      · rcases mem_cons.mp hid with rfl | hid
        · exact ⟨hown, fun hm => ((hids _).mp hm).2 (Eq.refl _)⟩
        · have := h.arrived id (mem_otherReplies.mp hid).1
          exact ⟨this.1, fun hm => this.2 ((hids id).mp hm).1⟩
      · obtain ⟨hs, ho⟩ := h.ignored_sent id hid
        exact ⟨(hids id).mpr ⟨hs, fun he => ho (he ▸ hown)⟩, ho⟩

/-! ### Primitive steps -/

theorem Kept.wp_newid {own : List UInt32} {c : Client} (h : Kept own c) :
    wp newid (fun id c' => Kept own c' ∧ Unused id c' ∧ Waits c c') (fun _ _ => False) c := by
  rw [newid, wp_bind, wp_get, wp_bind, wp_set, wp_pure]
  refine ⟨fun hl => h hl.tail, fun hl => ?_, rfl, rfl⟩
  have hfree := hl _ mem_cons_self
  simp only [Event.Harmless, Client.inUse, decide_eq_false_iff_not, not_or] at hfree
  exact ⟨hfree.1, hfree.2.1, hfree.2.2.1⟩

theorem Kept.wp_send {own : List UInt32} {id : UInt32} {c : Client} (h : Kept own c)
    (hid : Unused id c) (req : Request) :
    wp (send server id req) (fun _ c' => Kept (id :: own) c' ∧ Waits c c') (fun _ _ => False)
      c := by
  refine wp_mono ((((Kept.receives own).and (Unused.receives id)).and
    (Waits.receives c)).wp_send id req (And.intro (And.intro h hid) Waits.rfl)) ?_ (fun _ _ h => h)
  rintro _ c' ⟨c₁, ⟨⟨h₁, hid₁⟩, hw⟩, rfl⟩
  refine ⟨fun hl => ?_, hw.files, hw.existence_inflight⟩
  have h := h₁ hl.tail
  obtain ⟨hout, hrep, hig⟩ := hid₁ hl.tail
  have hown : id ∉ own := fun ho => (h.own_sent id ho).elim hout hrep
  -- the new request is the only one that has been added
  have hmem : ∀ id', id' ∈ (c₁.outstanding ++ [Pending.mk c₁.serial id req]).map Pending.id ↔
      id' ∈ c₁.outstanding.map Pending.id ∨ id' = id := by
    intro id'
    rw [map_append, mem_append]
    exact or_congr_right mem_singleton
  refine ⟨nodup_cons.mpr ⟨hown, h.own_nodup⟩, ?_, h.ignored_nodup, fun id' hid' => ?_,
    fun id' hid' => ?_, fun id' hid' => ?_, fun id' hid' => ?_⟩
  · rw [map_append]
    exact nodup_append.mpr ⟨h.ids_nodup, nodup_singleton _, fun a ha b hb he =>
      hout (by rw [← show b = id from mem_singleton.mp hb, ← he]; exact ha)⟩
  · rw [hmem]
    rcases mem_cons.mp hid' with rfl | hid'
    · exact .inl (.inr (Eq.refl _))
    · exact (h.own_sent id' hid').imp_left .inl
  · rcases (hmem id').mp hid' with hid' | rfl
    · exact (h.sent id' hid').imp_right (mem_cons_of_mem _)
    · exact .inr mem_cons_self
  · obtain ⟨ho, hs⟩ := h.arrived id' hid'
    refine ⟨mem_cons_of_mem _ ho, fun hm => ?_⟩
    rcases (hmem id').mp hm with hm | rfl
    · exact hs hm
    · exact hrep hid'
  · obtain ⟨hs, ho⟩ := h.ignored_sent id' hid'
    refine ⟨(hmem id').mpr (.inl hs), fun hm => ?_⟩
    rcases mem_cons.mp hm with rfl | hm
    · exact hig hid'
    · exact ho hm

/-- A reply is collected, and its id not waited for any more. -/
theorem Kept.wp_await {own : List UInt32} {id : UInt32} {c : Client} (h : Kept own c)
    (hid : id ∈ own) :
    wp (await server id)
      (fun _ c' => Kept (own.erase id) c' ∧ Unused id c' ∧ Waits c c')
      (fun stop _ => stop = .blocked) c := by
  refine wp_mono (((Kept.receives own).and (Waits.receives c)).wp_await id (And.intro h Waits.rfl)) ?_
    (fun _ _ h => h.1)
  rintro r c' ⟨c₁, s, ⟨h₁, hw⟩, hl, rfl⟩
  have harrived : id ∈ c₁.replies.map Prod.fst := mem_map_of_mem (mem_of_lookup hl)
  refine ⟨fun hl => ?_, fun hl => ?_, hw.files, hw.existence_inflight⟩
  · have h := h₁ hl.tail
    have herase : ∀ {id'}, id' ∈ own.erase id ↔ id' ≠ id ∧ id' ∈ own := h.own_nodup.mem_erase_iff
    have hgone := (h.arrived id harrived).2
    refine ⟨h.own_nodup.erase _, h.ids_nodup, h.ignored_nodup, fun id' hid' => ?_,
      fun id' hid' => ?_, fun id' hid' => ?_, fun id' hid' => ?_⟩
    · obtain ⟨hne, ho⟩ := herase.mp hid'
      exact (h.own_sent id' ho).imp_right fun hr => mem_otherReplies.mpr ⟨hr, hne⟩
    · refine (h.sent id' hid').imp_right fun ho => herase.mpr ⟨?_, ho⟩
      exact fun he => hgone (he ▸ hid')
    · obtain ⟨hr, hne⟩ := mem_otherReplies.mp hid'
      exact ⟨herase.mpr ⟨hne, (h.arrived id' hr).1⟩, (h.arrived id' hr).2⟩
    · exact ⟨(h.ignored_sent id' hid').1, fun hm =>
        (h.ignored_sent id' hid').2 (herase.mp hm).2⟩
  · have h := h₁ hl.tail
    exact ⟨(h.arrived id harrived).2, fun hm => (mem_otherReplies.mp hm).2 (Eq.refl _),
      fun hm => (h.ignored_sent id hm).2 hid⟩

/-- An id is ignored before its reply arrives. -/
theorem Kept.wp_ignore {own : List UInt32} {id : UInt32} {c : Client} (h : Kept own c)
    (hid : id ∈ own) :
    wp (ignore id) (fun _ c' => Kept (own.erase id) c' ∧ Waits c c') (fun _ _ => False) c := by
  rw [ignore, wp_modify]
  refine ⟨fun hl => ?_, rfl, rfl⟩
  have h := h hl.right.tail
  have hready : id ∉ c.replies.map Prod.fst := by
    have hr : c.ready id = false := hl.right _ mem_cons_self
    intro hm
    obtain ⟨r, hr', he⟩ := mem_map.mp hm
    rw [Client.ready, any_eq_false] at hr
    exact hr r hr' (decide_eq_true he)
  have hsent : id ∈ c.outstanding.map Pending.id := (h.own_sent id hid).resolve_right hready
  have herase : ∀ {id'}, id' ∈ own.erase id ↔ id' ≠ id ∧ id' ∈ own := h.own_nodup.mem_erase_iff
  have hnew : id ∉ c.ignored := fun hm => (h.ignored_sent id hm).2 hid
  simp only [if_neg hnew]
  refine ⟨h.own_nodup.erase _, h.ids_nodup, nodup_cons.mpr ⟨hnew, h.ignored_nodup⟩,
    fun id' hid' => ?_, fun id' hid' => ?_, fun id' hid' => ?_, fun id' hid' => ?_⟩
  · obtain ⟨hne, ho⟩ := herase.mp hid'
    exact (h.own_sent id' ho).imp_right fun hr => mem_otherReplies.mpr ⟨hr, hne⟩
  · by_cases he : id' = id
    · exact .inl (mem_cons.mpr (.inl he))
    · exact (h.sent id' hid').imp (mem_cons_of_mem _) fun ho => herase.mpr ⟨he, ho⟩
  · obtain ⟨hr, hne⟩ := mem_otherReplies.mp hid'
    exact ⟨herase.mpr ⟨hne, (h.arrived id' hr).1⟩, (h.arrived id' hr).2⟩
  · rcases mem_cons.mp hid' with rfl | hid'
    · exact ⟨hsent, fun hm => (herase.mp hm).1 (Eq.refl _)⟩
    · obtain ⟨hs, ho⟩ := h.ignored_sent id' hid'
      exact ⟨hs, fun hm => ho (herase.mp hm).2⟩

end Hbackup.Sftp
