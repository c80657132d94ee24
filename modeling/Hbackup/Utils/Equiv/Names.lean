import Hbackup.Lib.ProgramLogic
import Hbackup.Utils.Names
import Hbackup.Utils.Equiv.Number

/-!
# What the names of users and groups stand for

What the four functions answer is what they would find in the databases (`idName`, `idOf`): the tables
remember nothing else (`KnowsNames`, `KnowsIds`).
-/

namespace Hbackup

open ProgramLogic

/-! ### Answers -/

/-- The number that `string2uid` and `string2gid` find for a name. -/
def idOf (getid : Bytes → Option UInt32) (s : Bytes) : Option UInt32 :=
  if alldigits s then some (strtol 10 s).toUInt64.toUInt32 else getid (cstr s)

/-- The name of a user or group, or the number if there is none. -/
def idName (getname : UInt32 → Option Bytes) (id : UInt32) : Bytes :=
  (getname id).getD (decimal id.toNat)

/-- What is remembered of names is what would be found. -/
structure KnowsIds (cfg : Config) (n : Names) : Prop where
  uid : ∀ {s id}, n.names2uid.lookup s = some id → idOf cfg.users.getpwnam s = some id
  gid : ∀ {s id}, n.names2gid.lookup s = some id → idOf cfg.users.getgrnam s = some id

/-- The names remembered are right. -/
structure KnowsNames (cfg : Config) (n : Names) : Prop where
  uid : ∀ uid name, n.uid2names.lookup uid = some name → name = idName cfg.users.getpwuid uid
  gid : ∀ gid name, n.gid2names.lookup gid = some name → name = idName cfg.users.getgrgid gid

theorem lookup_cons {α β γ : Type} [BEq α] [LawfulBEq α] {f : α → γ} {g : β → γ} {k : α} {v : β}
    {l : List (α × β)} (hk : f k = g v) (hl : ∀ {k v}, l.lookup k = some v → f k = g v) {k' : α} {v' : β}
    (h : ((k, v) :: l).lookup k' = some v') : f k' = g v' := by
  rw [List.lookup_cons] at h
  split at h
  · rename_i heq
    rw [beq_iff_eq.mp heq, ← Option.some.inj h]
    exact hk
  · exact hl h

/-! ### The functions -/

/-- `w'` is `w` up to the tables and the warnings. -/
def LookedUp (w w' : World) : Prop := ∃ n k, w' = { w with names := n, warnings := k }

variable {cfg : Config} {K : Names → Prop}

/-- A name is looked up, in tables of which `K` holds. -/
theorem wp_string2id {table : Names → List (Bytes × UInt32)}
    {remember : Names → Bytes → UInt32 → Names} {getid : Bytes → Option UInt32} (msg : String)
    (s : Bytes) (w : World)
    (htable : K w.names → ∀ {s id}, (table w.names).lookup s = some id → idOf getid s = some id)
    (hremember : ∀ id, idOf getid s = some id → K w.names → K (remember w.names s id)) :
    wp (string2id table remember getid msg s)
      (fun id w' => LookedUp w w' ∧ (K w.names → K w'.names ∧ idOf getid s = some id))
      (fun stop w' => stop = .fatal msg [s] ∧ w' = w ∧ idOf getid s = none) w := by
  rw [string2id, wp_bind, wp_get]
  cases hl : (table w.names).lookup s with
  | some id => exact ⟨⟨_, _, rfl⟩, fun hk => ⟨hk, htable hk hl⟩⟩
  | none =>
    dsimp only
    rw [wp_ite]
    split
    · rename_i hdigits
      have hid : idOf getid s = some (strtol 10 s).toUInt64.toUInt32 := if_pos hdigits
      exact ⟨⟨_, _, rfl⟩, fun hk => ⟨hremember _ hid hk, hid⟩⟩
    · rename_i hdigits
      have hid : idOf getid s = getid (cstr s) := if_neg hdigits
      cases hget : getid (cstr s) with
      | some id =>
        have hid := hid.trans hget
        exact ⟨⟨_, _, rfl⟩, fun hk => ⟨hremember _ hid hk, hid⟩⟩
      | none => exact ⟨rfl, rfl, hid.trans hget⟩

variable {w : World}

/-- `uid2string` and `gid2string`. -/
theorem wp_id2string {table : Names → List (UInt32 × Bytes)}
    {remember : Names → UInt32 → Bytes → Names} {getname : UInt32 → Option Bytes} (id : UInt32)
    (hknown : ∀ name, (table w.names).lookup id = some name → name = idName getname id)
    {Q : Bytes → World → Prop} {E : Stop → World → Prop}
    (hsame : Q (idName getname id) w)
    (hnew : ∀ n, Q (idName getname id)
      { w with warnings := n, names := remember w.names id (idName getname id) }) :
    wp (id2string table remember getname id) Q E w := by
  rw [id2string, wp_bind, wp_get]
  split
  · rename_i name hname
    rw [wp_pure, hknown name hname]
    exact hsame
  · split
    · rename_i name hname
      have hid : idName getname id = name := by rw [idName, hname]; rfl
      rw [← hid]
      exact hnew w.warnings
    · rename_i hname
      have hid : idName getname id = decimal id.toNat := by rw [idName, hname]; rfl
      rw [← hid]
      exact hnew (w.warnings + 1)

/-- What is known of a table is known of it with one more pair. -/
theorem KnowsIds.uid_cons {n : Names} (h : KnowsIds cfg n) {s : Bytes} {id : UInt32}
    (hid : idOf cfg.users.getpwnam s = some id) :
    KnowsIds cfg { n with names2uid := (s, id) :: n.names2uid } :=
  ⟨lookup_cons hid h.uid, h.gid⟩

theorem KnowsIds.gid_cons {n : Names} (h : KnowsIds cfg n) {s : Bytes} {id : UInt32}
    (hid : idOf cfg.users.getgrnam s = some id) :
    KnowsIds cfg { n with names2gid := (s, id) :: n.names2gid } :=
  ⟨h.uid, lookup_cons hid h.gid⟩

theorem KnowsNames.lookup_cons {getname : UInt32 → Option Bytes} {id : UInt32}
    {table : List (UInt32 × Bytes)}
    (h : ∀ id' name, table.lookup id' = some name → name = idName getname id') (id' : UInt32)
    (name : Bytes) (hl : ((id, idName getname id) :: table).lookup id' = some name) :
    name = idName getname id' :=
  (Hbackup.lookup_cons (g := fun name => name) rfl (fun hl => (h _ _ hl).symm) hl).symm

end Hbackup
