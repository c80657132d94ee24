import Hbackup.Sftp.File
import Hbackup.Lib.ProgramLogic

/-!
# Waiting for replies

While the client waits or polls, all that happens is that items of the schedule go by and that
replies are filed.  `Receives` says that an invariant survives both; it then survives every loop
around `poll`, and `await` returns a reply that was in the map in a state where the invariant
held.
-/

namespace Hbackup.Sftp

open ProgramLogic

variable {server : Nat → Request → Reply}

/-- `I` survives the passing of time and the arrival of replies. -/
structure Receives (server : Nat → Request → Reply) (I : Client → Prop) : Prop where
  passes : ∀ c schedule, I c → I { c with schedule }
  files : ∀ c p schedule, I c → p ∈ c.outstanding →
    wp (stash server p) (fun _ => I) (fun _ _ => False)
      { c with schedule, outstanding := c.outstanding.erase p }

theorem Receives.and {I J : Client → Prop} (hI : Receives server I) (hJ : Receives server J) :
    Receives server fun c => I c ∧ J c where
  passes c schedule h := ⟨hI.passes c schedule h.1, hJ.passes c schedule h.2⟩
  files c p schedule h hp :=
    wp_mono (wp_and (hI.files c p schedule h.1 hp) (hJ.files c p schedule h.2 hp))
      (fun _ _ h => h) (fun _ _ h => h.1)

/-- What the next look at the input finds. -/
theorem wp_arrival {Q : Option Pending → Client → Prop} {c : Client}
    (hnone : ∀ schedule, schedule.length = c.schedule.length - 1 → Q none { c with schedule })
    (hsome : ∀ p ∈ c.outstanding, ∀ schedule, schedule.length + 1 = c.schedule.length →
      Q (some p) { c with schedule, outstanding := c.outstanding.erase p }) :
    wp arrival Q (fun _ _ => False) c := by
  rw [arrival, wp_bind, wp_get]
  match hs : c.schedule with
  | [] =>
    rw [wp_pure, show c = { c with schedule := [] } by rw [← hs]]
    exact hnone [] (by simp [hs])
  | none :: schedule =>
    simp only [wp_bind, wp_set, wp_pure]
    exact hnone schedule (by simp [hs])
  | some i :: schedule =>
    simp only
    cases hp : c.outstanding[i % c.outstanding.length]? with
    | none =>
      simp only [wp_bind, wp_set, wp_pure]
      exact hnone schedule (by simp [hs])
    | some p =>
      simp only [wp_bind, wp_set, wp_pure]
      exact hsome p (List.mem_of_getElem? hp) schedule (by simp [hs])

theorem Receives.wp_pollReady {I : Client → Prop} (hI : Receives server I) :
    ∀ (turns : Nat) {c : Client}, I c →
      wp (pollReady server turns) (fun _ => I) (fun _ _ => False) c
  | 0, _, h => h
  | turns + 1, c, h => by
    rw [pollReady, wp_bind]
    refine wp_arrival (fun schedule _ => hI.passes c schedule h) fun p hp schedule _ => ?_
    rw [wp_bind]
    exact wp_mono (hI.files c p schedule h hp) (fun _ _ h' => hI.wp_pollReady turns h')
      (fun _ _ h => h)

/-- Filing a reply takes no time. -/
theorem wp_stash_schedule (p : Pending) (c : Client) :
    wp (stash server p) (fun _ c' => c'.schedule = c.schedule) (fun _ _ => False) c := by
  rw [stash, wp_bind, wp_get]
  split_ifs <;> exact rfl

/-- Waiting for the next reply; it takes at least one item of the schedule. -/
theorem Receives.wp_recv {I : Client → Prop} (hI : Receives server I) :
    ∀ (turns : Nat) {c : Client}, c.schedule.length ≤ turns → I c →
      wp (recv turns >>= stash server)
        (fun _ c' => I c' ∧ c'.schedule.length < c.schedule.length)
        (fun stop c' => stop = .blocked ∧ (c'.schedule = [] ∧ c'.replies = c.replies) ∧ I c') c
  | 0, c, hturns, h =>
    ⟨rfl, ⟨List.eq_nil_of_length_eq_zero (Nat.le_zero.mp hturns), rfl⟩, h⟩
  | turns + 1, c, hturns, h => by
    rw [recv, bind_assoc, wp_bind]
    by_cases hempty : c.schedule.length = 0
    · -- nothing will come any more
      refine wp_mono (wp_arrival (Q := fun o c' => o = none ∧ I c' ∧ c'.schedule.length = 0 ∧
          c'.replies = c.replies)
        (fun schedule hs => ⟨rfl, hI.passes c schedule h, by simp [hs, hempty], rfl⟩)
        fun p _ schedule hs => by omega) ?_ (fun _ _ h => h.elim)
      rintro o c' ⟨rfl, h', hs, hrep⟩
      rw [← hrep]
      refine wp_mono (hI.wp_recv turns (by omega) h') (fun _ c'' h'' => ?_) (fun _ _ h => h)
      omega
    refine wp_mono (wp_arrival ?_ ?_) (fun _ _ h' => h') (fun _ _ h => h.elim)
    · intro schedule hs
      refine wp_mono (hI.wp_recv turns (by simp; omega) (hI.passes c schedule h))
        (fun _ c' h' => ⟨h'.1, ?_⟩) (fun _ _ h => h)
      have := h'.2
      simp only at this
      omega
    · -- filing the reply cannot stop the program
      intro p hp schedule hs
      refine wp_mono (wp_and (hI.files c p schedule h hp) (wp_stash_schedule p _))
        (fun _ c' h' => ⟨h'.1, ?_⟩) (fun _ _ h => h.1.elim)
      rw [h'.2]
      simp only
      omega

theorem Receives.wp_poll {I : Client → Prop} (hI : Receives server I) {c : Client} (h : I c) :
    wp (poll server) (fun _ c' => I c' ∧ c'.schedule.length < c.schedule.length)
      (fun stop c' => stop = .blocked ∧ (c'.schedule = [] ∧ c'.replies = c.replies) ∧ I c') c := by
  rw [poll, wp_bind, wp_get]
  exact hI.wp_recv _ (Nat.le_refl _) h

/-- **`await` returns a reply from the map**, and takes it out; it is blocked only if the reply is
not there. -/
theorem Receives.wp_await {I : Client → Prop} (hI : Receives server I) (id : UInt32)
    {c : Client} (h : I c) :
    wp (await server id)
      (fun r c' => ∃ c₁ s, I c₁ ∧ c₁.replies.lookup id = some (s, r) ∧
        c' = { c₁ with replies := c₁.otherReplies id, log := .delivered s :: c₁.log })
      (fun stop c' => stop = .blocked ∧ (c'.schedule = [] ∧ c'.replies.lookup id = none) ∧ I c')
      c := by
  suffices H : ∀ (turns : Nat) (c : Client), c.schedule.length < turns → I c →
      wp (awaitLoop server id turns)
        (fun r c' => ∃ c₁ s, I c₁ ∧ c₁.replies.lookup id = some (s, r) ∧
          c' = { c₁ with replies := c₁.otherReplies id, log := .delivered s :: c₁.log })
        (fun stop c' => stop = .blocked ∧ (c'.schedule = [] ∧ c'.replies.lookup id = none) ∧ I c')
        c by
    rw [await, wp_bind, wp_get]
    exact H _ c (Nat.lt_succ_self _) h
  intro turns
  induction turns with
  | zero => exact fun c hc _ => absurd hc (Nat.not_lt_zero _)
  | succ turns ih =>
    intro c hturns h
    rw [awaitLoop, wp_bind, wp_get]
    cases hl : c.replies.lookup id with
    | none =>
      simp only [wp_bind]
      refine wp_mono (hI.wp_poll h) (fun _ c' h' => ih c' (by omega) h'.1) ?_
      rintro stop c' ⟨hstop, ⟨hs, hrep⟩, h'⟩
      exact ⟨hstop, ⟨hs, hrep ▸ hl⟩, h'⟩
    | some sr =>
      obtain ⟨s, r⟩ := sr
      exact ⟨c, s, h, hl, rfl⟩

/-- `send` polls, and then puts the request on the wire. -/
theorem Receives.wp_send {I : Client → Prop} (hI : Receives server I) (id : UInt32)
    (req : Request) {c : Client} (h : I c) :
    wp (send server id req)
      (fun _ c' => ∃ c₁, I c₁ ∧ c' = { c₁ with
        outstanding := c₁.outstanding ++ [⟨c₁.serial, id, req⟩]
        serial := c₁.serial + 1
        log := .sent ⟨c₁.serial, id, req⟩ :: c₁.log })
      (fun _ _ => False) c := by
  rw [send, wp_bind, wp_get, wp_bind]
  refine wp_mono (hI.wp_pollReady _ h) (fun _ c₁ h₁ => ?_) (fun _ _ h => h)
  exact ⟨c₁, h₁, rfl⟩

/-- Entries of the reply map are found under their id. -/
theorem mem_of_lookup {replies : List (UInt32 × Nat × Reply)} {id : UInt32} {v : Nat × Reply}
    (h : replies.lookup id = some v) : (id, v) ∈ replies := by
  obtain ⟨l₁, l₂, rfl, -⟩ := List.lookup_eq_some_iff.mp h
  simp

/-! ### Ids in a long run -/

/-- The id that the `n`-th call of `newid` returns: 0 is left out when the counter wraps. -/
def idOf (n : Nat) : UInt32 := UInt32.ofNat (n % (2 ^ 32 - 1) + 1)

/-- The next call of `newid` is number `n`. -/
def NextId (n : Nat) (c : Client) : Prop := (if c.id = 0 then 1 else c.id) = idOf n

theorem toNat_idOf (n : Nat) : (idOf n).toNat = n % (2 ^ 32 - 1) + 1 :=
  UInt32.toNat_ofNat_of_lt' (by
    have := Nat.mod_lt n (show 0 < 2 ^ 32 - 1 by decide)
    change _ < 2 ^ 32
    omega)

/-- Ids that are given out close to one another are different. -/
theorem idOf_ne {a b : Nat} (hab : a < b) (hclose : b < a + (2 ^ 32 - 1)) : idOf a ≠ idOf b := by
  intro e
  have h := congrArg UInt32.toNat e
  rw [toNat_idOf, toNat_idOf] at h
  omega

theorem NextId.exists (c : Client) : ∃ n, NextId n c := by
  by_cases h : c.id = 0
  · exact ⟨0, by simp [NextId, h, idOf]⟩
  · refine ⟨c.id.toNat - 1, ?_⟩
    have hpos : c.id.toNat ≠ 0 := fun e => h (UInt32.toNat_inj.mp (by simpa using e))
    have hlt := c.id.toNat_lt
    rw [NextId, if_neg h]
    apply UInt32.toNat_inj.mp
    rw [toNat_idOf, Nat.mod_eq_of_lt (by omega)]
    omega

theorem NextId.wp_newid {n : Nat} {c : Client} (h : NextId n c) :
    wp newid (fun id c' => id = idOf n ∧
        c' = { c with id := idOf n + 1, log := .newid id (c.inUse id) :: c.log })
      (fun _ _ => False) c := by
  rw [newid, wp_bind, wp_get]
  unfold NextId at h
  rw [h]
  exact ⟨rfl, rfl⟩

theorem NextId.succ {n : Nat} {c : Client} (h : c.id = idOf n + 1) : NextId (n + 1) c := by
  have hlt := Nat.mod_lt n (show 0 < 2 ^ 32 - 1 by decide)
  unfold NextId
  apply UInt32.toNat_inj.mp
  have hid : c.id.toNat = (n % (2 ^ 32 - 1) + 2) % 2 ^ 32 := by
    rw [h, UInt32.toNat_add, toNat_idOf]; rfl
  rw [toNat_idOf]
  split_ifs with h0
  · rw [h0] at hid
    simp only [UInt32.toNat_zero, UInt32.toNat_one] at hid ⊢
    omega
  · have : c.id.toNat ≠ 0 := fun e => h0 (UInt32.toNat_inj.mp (by simpa using e))
    omega

/-! ### Files of a client -/

theorem wp_getFile {k : Nat} {f : SftpFile} {c : Client} (h : c.files[k]? = some (some f))
    (Q : SftpFile → Client → Prop) (E : Stop → Client → Prop) :
    wp (getFile k) Q E c ↔ Q f c := by
  rw [getFile, wp_bind, wp_get, h]
  rfl

theorem files_set {c : Client} {k : Nat} {f : SftpFile} (h : c.files[k]? = some (some f))
    (f' : SftpFile) : (c.files.set k (some f'))[k]? = some (some f') := by
  rw [List.getElem?_set_self (List.getElem?_eq_some_iff.mp h).1]

@[simp] theorem wp_setFile (k : Nat) (f : SftpFile) (Q : Unit → Client → Prop)
    (E : Stop → Client → Prop) (c : Client) :
    wp (setFile k f) Q E c ↔ Q () { c with files := c.files.set k (some f) } := Iff.rfl

end Hbackup.Sftp
