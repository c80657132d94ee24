import Hbackup.Equiv.Destructor
import Hbackup.Utils.Equiv.Names

/-!
# Owners survive the round trip

Whatever has been looked up before, the tables know what is in the databases and nothing else, so that
every answer is that of a first call, and a number comes back from its name
(`owners_round_trip`).  A name that consists of digits is taken for a number.
-/

namespace Hbackup

open ProgramLogic

variable {cfg : Config} {w w' : World}

/-! ### Calls -/

/-- A call that fills a table. -/
inductive NameCall
  | uid2string (uid : UInt32)
  | gid2string (gid : UInt32)
  | string2uid (s : Bytes)
  | string2gid (s : Bytes)

/-- The call, and its answer thrown away. -/
def NameCall.run (cfg : Config) : NameCall → M Unit
  | uid2string uid => do let _ ← Hbackup.uid2string cfg uid
  | gid2string gid => do let _ ← Hbackup.gid2string cfg gid
  | string2uid s => do let _ ← Hbackup.string2uid cfg s
  | string2gid s => do let _ ← Hbackup.string2gid cfg s

/-- All four tables are right. -/
def Knows (cfg : Config) (n : Names) : Prop := KnowsNames cfg n ∧ KnowsIds cfg n

theorem knows_empty (cfg : Config) : Knows cfg {} :=
  ⟨⟨by simp, by simp⟩, ⟨by simp, by simp⟩⟩

theorem Knows.wp_uid2string (h : Knows cfg w.names) (uid : UInt32) :
    wp (uid2string cfg uid) (fun name w' => Knows cfg w'.names ∧ name = idName cfg.users.getpwuid uid)
      (fun _ _ => False) w :=
  wp_id2string uid (h.1.uid uid) ⟨h, rfl⟩ fun _ =>
    ⟨⟨⟨KnowsNames.lookup_cons h.1.uid, h.1.gid⟩, h.2.uid, h.2.gid⟩, rfl⟩

theorem Knows.wp_gid2string (h : Knows cfg w.names) (gid : UInt32) :
    wp (gid2string cfg gid) (fun name w' => Knows cfg w'.names ∧ name = idName cfg.users.getgrgid gid)
      (fun _ _ => False) w :=
  wp_id2string gid (h.1.gid gid) ⟨h, rfl⟩ fun _ =>
    ⟨⟨⟨h.1.uid, KnowsNames.lookup_cons h.1.gid⟩, h.2.uid, h.2.gid⟩, rfl⟩

theorem Knows.wp_string2uid (h : Knows cfg w.names) (s : Bytes) :
    wp (string2uid cfg s)
      (fun uid w' => Knows cfg w'.names ∧ idOf cfg.users.getpwnam s = some uid)
      (fun stop _ => stop = .fatal "no UID with name %s" [s] ∧ idOf cfg.users.getpwnam s = none) w := by
  apply wp_mono (wp_string2id (K := Knows cfg) _ s w (fun hk _ _ hl => hk.2.uid hl)
    fun _ hid hk => ⟨⟨hk.1.uid, hk.1.gid⟩, hk.2.uid_cons hid⟩)
  · exact fun uid w' hk => hk.2 h
  · exact fun stop w' hstop => ⟨hstop.1, hstop.2.2⟩

theorem Knows.wp_string2gid (h : Knows cfg w.names) (s : Bytes) :
    wp (string2gid cfg s)
      (fun gid w' => Knows cfg w'.names ∧ idOf cfg.users.getgrnam s = some gid)
      (fun stop _ => stop = .fatal "no GID with name %s" [s] ∧ idOf cfg.users.getgrnam s = none) w := by
  apply wp_mono (wp_string2id (K := Knows cfg) _ s w (fun hk _ _ hl => hk.2.gid hl)
    fun _ hid hk => ⟨⟨hk.1.uid, hk.1.gid⟩, hk.2.gid_cons hid⟩)
  · exact fun gid w' hk => hk.2 h
  · exact fun stop w' hstop => ⟨hstop.1, hstop.2.2⟩

/-- A call keeps the tables right. -/
theorem Knows.wp_run (h : Knows cfg w.names) (call : NameCall) :
    wp (call.run cfg) (fun _ w' => Knows cfg w'.names) (fun _ _ => True) w := by
  cases call with
  | uid2string uid =>
    rw [NameCall.run, wp_bind]
    exact wp_mono (h.wp_uid2string uid) (fun _ _ hk => hk.1) fun _ _ hfalse => hfalse.elim
  | gid2string gid =>
    rw [NameCall.run, wp_bind]
    exact wp_mono (h.wp_gid2string gid) (fun _ _ hk => hk.1) fun _ _ hfalse => hfalse.elim
  | string2uid s =>
    rw [NameCall.run, wp_bind]
    exact wp_mono (h.wp_string2uid s) (fun _ _ hk => hk.1) fun _ _ _ => trivial
  | string2gid s =>
    rw [NameCall.run, wp_bind]
    exact wp_mono (h.wp_string2gid s) (fun _ _ hk => hk.1) fun _ _ _ => trivial

/-- So do any calls. -/
theorem Knows.of_calls (h : Knows cfg w.names) {calls : List NameCall}
    (hcalls : calls.forM (NameCall.run cfg) w = .ok () w') : Knows cfg w'.names := by
  have hrun : wp (calls.forM (NameCall.run cfg)) (fun _ w' => Knows cfg w'.names) (fun _ _ => True) w :=
    wp_forM (fun _ (w' : World) => Knows cfg w'.names) (fun _ call _ _ _ hk => hk.wp_run call) h
  have hknows := wp_elim_ok hrun hcalls
  exact hknows

/-! ### Answers -/

/-- What a call returns, or what it stops with. -/
def answerOf {α : Type} (m : M α) (w : World) : Except Stop α :=
  match m w with
  | .ok a _ => .ok a
  | .error e _ => .error e

theorem Knows.answer_uid2string (h : Knows cfg w.names) (uid : UInt32) :
    answerOf (uid2string cfg uid) w = .ok (idName cfg.users.getpwuid uid) := by
  obtain ⟨name, w', hok, -, rfl⟩ := wp_returns (h.wp_uid2string uid)
  rw [answerOf, hok]

theorem Knows.answer_gid2string (h : Knows cfg w.names) (gid : UInt32) :
    answerOf (gid2string cfg gid) w = .ok (idName cfg.users.getgrgid gid) := by
  obtain ⟨name, w', hok, -, rfl⟩ := wp_returns (h.wp_gid2string gid)
  rw [answerOf, hok]

/-- The answer of `string2uid` and `string2gid`. -/
def idAnswer (msg : String) (s : Bytes) : Option UInt32 → Except Stop UInt32
  | some id => .ok id
  | none => .error (.fatal msg [s])

theorem Knows.answer_string2uid (h : Knows cfg w.names) (s : Bytes) :
    answerOf (string2uid cfg s) w = idAnswer "no UID with name %s" s (idOf cfg.users.getpwnam s) := by
  have hrun := h.wp_string2uid s
  unfold answerOf
  cases hresult : string2uid cfg s w with
  | ok uid w' => rw [(wp_elim_ok hrun hresult).2, idAnswer]
  | error stop w' =>
    obtain ⟨rfl, hnone⟩ := wp_elim_error hrun hresult
    rw [hnone, idAnswer]

theorem Knows.answer_string2gid (h : Knows cfg w.names) (s : Bytes) :
    answerOf (string2gid cfg s) w = idAnswer "no GID with name %s" s (idOf cfg.users.getgrnam s) := by
  have hrun := h.wp_string2gid s
  unfold answerOf
  cases hresult : string2gid cfg s w with
  | ok gid w' => rw [(wp_elim_ok hrun hresult).2, idAnswer]
  | error stop w' =>
    obtain ⟨rfl, hnone⟩ := wp_elim_error hrun hresult
    rw [hnone, idAnswer]

/-! ### Round trips -/

/-- The names that the databases give stand for the numbers that they give them for. -/
structure Resolves (users : UserDb) : Prop where
  uid : ∀ {uid name}, users.getpwuid uid = some name → users.getpwnam (cstr name) = some uid
  gid : ∀ {gid name}, users.getgrgid gid = some name → users.getgrnam (cstr name) = some gid

/-- The name is not one of digits only that are another number. -/
def NotAnother (getname : UInt32 → Option Bytes) (id : UInt32) : Prop :=
  ∀ name, getname id = some name → alldigits name = true → (strtol 10 name).toUInt64.toUInt32 = id

/-- A number comes back from its name. -/
theorem idOf_idName {getname : UInt32 → Option Bytes} {getid : Bytes → Option UInt32} {id : UInt32}
    (hresolve : ∀ {name}, getname id = some name → getid (cstr name) = some id)
    (hid : NotAnother getname id) : idOf getid (idName getname id) = some id := by
  cases hname : getname id with
  | some name =>
    rw [idName, hname, Option.getD_some, idOf]
    split
    · rename_i hdigits
      rw [hid name hname hdigits]
    · exact hresolve hname
  | none =>
    have hlt : id.toNat < 2 ^ 63 := lt_trans id.toNat_lt (by decide)
    rw [idName, hname, Option.getD_none, idOf, if_pos (alldigits_decimal _), strtol_decimal hlt]
    have hback : (Int64.ofInt id.toNat).toUInt64.toUInt32 = id := by
      apply UInt32.toNat_inj.mp
      have hid := id.toNat_lt
      rw [UInt64.toNat_toUInt32, toNat_toUInt64_ofInt]
      omega
    rw [hback]

theorem Knows.uid_comes_back (h : Knows cfg w.names) (hresolve : Resolves cfg.users) {uid : UInt32}
    (huid : NotAnother cfg.users.getpwuid uid) :
    ∃ name w₁ w₂, uid2string cfg uid w = .ok name w₁ ∧ string2uid cfg name w₁ = .ok uid w₂ := by
  obtain ⟨name, w₁, hname, h₁, rfl⟩ := wp_returns (h.wp_uid2string uid)
  have hrun := h₁.wp_string2uid (idName cfg.users.getpwuid uid)
  rw [idOf_idName hresolve.uid huid] at hrun
  cases hok : string2uid cfg (idName cfg.users.getpwuid uid) w₁ with
  | ok uid' w₂ =>
    obtain ⟨-, huid'⟩ := wp_elim_ok hrun hok
    rw [← Option.some.inj huid'] at hok
    exact ⟨_, w₁, w₂, hname, hok⟩
  | error stop w₂ => exact absurd (wp_elim_error hrun hok).2 (by simp)

theorem Knows.gid_comes_back (h : Knows cfg w.names) (hresolve : Resolves cfg.users) {gid : UInt32}
    (hgid : NotAnother cfg.users.getgrgid gid) :
    ∃ name w₁ w₂, gid2string cfg gid w = .ok name w₁ ∧ string2gid cfg name w₁ = .ok gid w₂ := by
  obtain ⟨name, w₁, hname, h₁, rfl⟩ := wp_returns (h.wp_gid2string gid)
  have hrun := h₁.wp_string2gid (idName cfg.users.getgrgid gid)
  rw [idOf_idName hresolve.gid hgid] at hrun
  cases hok : string2gid cfg (idName cfg.users.getgrgid gid) w₁ with
  | ok gid' w₂ =>
    obtain ⟨-, hgid'⟩ := wp_elim_ok hrun hok
    rw [← Option.some.inj hgid'] at hok
    exact ⟨_, w₁, w₂, hname, hok⟩
  | error stop w₂ => exact absurd (wp_elim_error hrun hok).2 (by simp)

/-- **Owners survive the round trip**, whatever has been looked up before, unless an owner has a name of
digits that are another number; and no answer depends on what has been looked up. -/
theorem owners_round_trip (cfg : Config) (hresolve : Resolves cfg.users) (calls : List NameCall)
    (w w' : World) (hfirst : w.names = {}) (hcalls : calls.forM (NameCall.run cfg) w = .ok () w') :
    (∀ uid, NotAnother cfg.users.getpwuid uid →
      ∃ name w₁ w₂, uid2string cfg uid w' = .ok name w₁ ∧ string2uid cfg name w₁ = .ok uid w₂) ∧
    (∀ gid, NotAnother cfg.users.getgrgid gid →
      ∃ name w₁ w₂, gid2string cfg gid w' = .ok name w₁ ∧ string2gid cfg name w₁ = .ok gid w₂) ∧
    (∀ uid, answerOf (uid2string cfg uid) w' = answerOf (uid2string cfg uid) w) ∧
    (∀ gid, answerOf (gid2string cfg gid) w' = answerOf (gid2string cfg gid) w) ∧
    (∀ s, answerOf (string2uid cfg s) w' = answerOf (string2uid cfg s) w) ∧
    ∀ s, answerOf (string2gid cfg s) w' = answerOf (string2gid cfg s) w := by
  have h : Knows cfg w.names := by
    rw [hfirst]
    exact knows_empty cfg
  have h' := h.of_calls hcalls
  refine ⟨fun uid huid => h'.uid_comes_back hresolve huid,
    fun gid hgid => h'.gid_comes_back hresolve hgid, ?_, ?_, ?_, ?_⟩
  · intro uid
    rw [h'.answer_uid2string, h.answer_uid2string]
  · intro gid
    rw [h'.answer_gid2string, h.answer_gid2string]
  · intro s
    rw [h'.answer_string2uid, h.answer_string2uid]
  · intro s
    rw [h'.answer_string2gid, h.answer_string2gid]

/-! ### A name of digits -/

/-- One user, who has the name `name`. -/
def oneUser (uid : UInt32) (name : Bytes) : Config :=
  { smallRestore none with
    users :=
      { getpwuid := fun uid' => if uid' = uid then some name else none
        getpwnam := fun name' => if name' = name then some uid else none
        getgrgid := fun _ => none
        getgrnam := fun _ => none } }

theorem resolves_oneUser (uid : UInt32) {name : Bytes} (hname : cstr name = name) :
    Resolves (oneUser uid name).users where
  uid {uid' name'} h := by
    have hlookup : (if uid' = uid then some name else none) = some name' := h
    rw [Option.ite_none_right_eq_some] at hlookup
    obtain ⟨rfl, hsame⟩ := hlookup
    rw [← Option.some.inj hsame, hname]
    exact if_pos rfl
  gid h := by cases h

/-- The user `mail`, looked up after the number. -/
theorem mail_comes_back : ∃ name w₁ w₂,
    uid2string (oneUser 8 (lit "mail")) 8 (stateAfter
      ([.uid2string 8, .string2uid (lit "mail")].forM (NameCall.run (oneUser 8 (lit "mail"))))
      { store := ∅ }) = .ok name w₁ ∧
    string2uid (oneUser 8 (lit "mail")) name w₁ = .ok 8 w₂ :=
  (owners_round_trip (oneUser 8 (lit "mail")) (resolves_oneUser 8 (by decide))
    [.uid2string 8, .string2uid (lit "mail")] { store := ∅ } _ rfl
    (ok_of_value? rfl)).1 8 (by
      intro name hname hdigits
      have hsome : some (lit "mail") = some name := hname
      rw [← Option.some.inj hsome] at hdigits
      exact absurd hdigits (by decide))

/-- The user 5 has the name `1000`. -/
theorem not_owners_round_trip : ¬ ∀ (cfg : Config) (_ : Resolves cfg.users) (w : World)
    (_ : w.names = {}) (uid : UInt32),
    ∃ name w₁ w₂, uid2string cfg uid w = .ok name w₁ ∧ string2uid cfg name w₁ = .ok uid w₂ := by
  intro hall
  have hresolve : Resolves (oneUser 5 (lit "1000")).users := resolves_oneUser 5 (by decide)
  obtain ⟨name, w₁, w₂, hname, huid⟩ :=
    hall (oneUser 5 (lit "1000")) hresolve { store := ∅ } rfl 5
  have h₁ := wp_elim_ok ((knows_empty (oneUser 5 (lit "1000"))).wp_uid2string
    (w := { store := ∅ }) 5) hname
  obtain ⟨hk, rfl⟩ := h₁
  have hid := (wp_elim_ok (hk.wp_string2uid _) huid).2
  exact absurd hid (by decide)

end Hbackup
