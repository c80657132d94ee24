import Hbackup.Equiv.RestoreEntry
import Hbackup.Script.Restore
import Hbackup.Utils.Equiv.Names
import Hbackup.Utils.Equiv.Number

/-!
# The script restores one entry

What `restore` of the script makes of a line: the object that the line provides (`Right`), under its final
name.  If a warning is given, or the script ends, then something has failed that the line does not
provide for, as long as every call succeeds that can (`wp_restore`).
-/

namespace Hbackup.Script

open ProgramLogic Target

variable {cfg : Config} {details : Pairs} {w : World} {s s' : Unpacking} {X : Prop}

/-! ### Numbers -/

theorem digitsValue_digits {b : Nat} (hb : 1 < b) (hb' : b ≤ 10) (n : Nat) :
    digitsValue b (digits b n) = some n := by
  have hne : digits b n ≠ [] := by
    rw [digits, ne_eq, List.map_eq_nil_iff]
    exact Nat.toDigits_ne_nil
  have hall : (digits b n).all fun c => isdigit c ∧ c.toNat - 48 < b := by
    rw [List.all_eq_true]
    intro c hc
    simpa using (digit_spec hb' (mem_digits hb hb' n) c hc).2.2.2.2
  rw [digitsValue, if_pos ⟨hne, hall⟩, foldl_digits hb hb']

theorem strip_eq {t : Bytes} (h : ∀ c ∈ t, isspace c = false) : strip t = t := by
  have hdrop : ∀ t : Bytes, (∀ c ∈ t, isspace c = false) → t.dropWhile isspace = t := by
    intro t ht
    cases t with
    | nil => rfl
    | cons c t => rw [List.dropWhile_cons_of_neg (by simp [ht c List.mem_cons_self])]
  unfold strip
  rw [hdrop t h, hdrop _ fun c hc => h c (List.mem_reverse.mp hc), List.reverse_reverse]

/-- Digits have no `o` among them. -/
theorem dropOctal_eq {b : Nat} {t : Bytes} (h : ∀ c ∈ t, isdigit c) : dropOctal b t = t := by
  unfold dropOctal
  refine if_neg ?_
  rintro ⟨-, ho | ho⟩
  · have hmem : (111 : UInt8) ∈ t.take 2 := ho ▸ by decide
    exact absurd (h _ (List.mem_of_mem_take hmem)) (by decide)
  · have hmem : (79 : UInt8) ∈ t.take 2 := ho ▸ by decide
    exact absurd (h _ (List.mem_of_mem_take hmem)) (by decide)

theorem pyInt_of_digits {b : Nat} (hb' : b ≤ 10) {t : Bytes} (ht : ∀ c ∈ t, ∃ d < b, c.toNat = 48 + d) :
    pyInt b t = (digitsValue b t).map fun n : Nat => (n : Int) := by
  have hspec := digit_spec hb' ht
  have hstrip : strip t = t := strip_eq fun c hc => (hspec c hc).2.1
  have hsign : takeSign t = (false, t) := by
    unfold takeSign
    split
    · exact absurd rfl (hspec 45 List.mem_cons_self).2.2.1
    · exact absurd rfl (hspec 43 List.mem_cons_self).2.2.2.1
    · rfl
  rw [pyInt, hstrip, hsign]
  dsimp only
  rw [dropOctal_eq fun c hc => (hspec c hc).2.2.2.2.1]
  rfl

theorem pyInt_digits {b : Nat} (hb : 1 < b) (hb' : b ≤ 10) (n : Nat) :
    pyInt b (digits b n) = some (n : Int) := by
  rw [pyInt_of_digits hb' (mem_digits hb hb' n), digitsValue_digits hb hb']
  rfl

theorem pyInt_decimal (n : Nat) : pyInt 10 (decimal n) = some (n : Int) :=
  pyInt_digits (by decide) (by decide) n

/-- The number fits into a C integer of this many bits. -/
def Fits (bits : Nat) (n : Int) : Prop := -2 ^ (bits - 1) ≤ n ∧ n < 2 ^ (bits - 1)

instance (bits : Nat) (n : Int) : Decidable (Fits bits n) := inferInstanceAs (Decidable (_ ∧ _))

/-- The C integer that a text stands for. -/
def cValue (bits base : Nat) (t : Bytes) : Option Int :=
  (pyInt base t).bind fun n => if Fits bits n then some n else none

/-- The permission bits. -/
def modeFor (details : Pairs) : Option UInt32 :=
  ((details.lookup (lit "perms")).bind (cValue 32 8)).map UInt32.ofInt

/-- The number that a name has, or that it is. -/
def idFor (getid : Bytes → Option UInt32) (name : Bytes) : Option Int :=
  (pyInt 10 name).or ((getid name).map fun id => (id.toNat : Int))

/-- The owner of this name. -/
def ownerId (getid : Bytes → Option UInt32) (name : Bytes) : Option UInt32 :=
  ((idFor getid name).bind fun n => if Fits 32 n then some n else none).map UInt32.ofInt

/-- The owner. -/
def ownerFor (getid : Bytes → Option UInt32) (details : Pairs) (k : String) : Option UInt32 :=
  (details.lookup (lit k)).bind (ownerId getid)

def timeFor (details : Pairs) (k : String) : Option Int64 :=
  ((details.lookup (lit k)).bind (cValue 64 10)).map Int64.ofInt

/-- A device. -/
def deviceFor (details : Pairs) (tp : UInt32) : Option Body := do
  let mode ← modeFor details
  let rdev ← (details.lookup (lit "rdev")).bind (cValue 32 10)
  let type := (mode ||| tp) &&& S_IFMT
  if type = S_IFCHR ∨ type = S_IFBLK then some (.dev type (UInt64.ofInt rdev)) else none

/-- What the object is; the contents of a file may be in the repository. -/
def bodyFor (repo : Bytes) (store : Store) (details : Pairs) : Option Body :=
  match details.lookup (lit "type") with
  | none =>
    match details.lookup HASH_NAME with
    | some hash =>
      match store.lookup (hash_path repo HASH_NAME hash).2 with
      | some (.file c) => some (.file c)
      | _ => none
    | none => (details.lookup (lit "data")).map Body.file
  | some type =>
    if type = lit "link" then
      (details.lookup (lit "target")).bind fun t => if 0 ∈ t then none else some (.link t)
    else if type = lit "dir" then some .dir
    else if type = lit "chr" then deviceFor details S_IFCHR
    else if type = lit "blk" then deviceFor details S_IFBLK
    else none

/-- The type of the line is `type`. -/
abbrev HasType (details : Pairs) (type : String) : Prop :=
  details.lookup (lit "type") = some (lit type)

/-- The line provides for the whole object. -/
structure Provided (cfg : Config) (store : Store) (details : Pairs) : Prop where
  body : (bodyFor cfg.repo store details).isSome
  uid : (ownerFor cfg.users.getpwnam details "uid").isSome
  gid : (ownerFor cfg.users.getgrnam details "gid").isSome
  mode : ¬ HasType details "link" → (modeFor details).isSome
  atime : ¬ HasType details "link" → (timeFor details "atime").isSome
  mtime : ¬ HasType details "link" → (timeFor details "mtime").isSome

/-- The object that the line provides.  The set-user-ID and set-group-ID bits are lost when it gets its
owner, but for those of a directory; and a directory does not keep its times when there is something made
in it. -/
structure Right (cfg : Config) (store : Store) (details : Pairs) (ino : Inode) : Prop where
  body : bodyFor cfg.repo store details = some ino.body
  uid : ownerFor cfg.users.getpwnam details "uid" = some ino.uid
  gid : ownerFor cfg.users.getgrnam details "gid" = some ino.gid
  mode : ¬ HasType details "link" → (modeFor details).map (fun mode =>
    mode &&& if ino.body = .dir then 0o7777 else 0o1777) = some ino.mode
  times : ¬ HasType details "link" → ino.body ≠ .dir →
    timeFor details "atime" = some ino.atime ∧ timeFor details "mtime" = some ino.mtime

/-! ### Rules -/

/-- What has stopped a call of the `os` module. -/
def raisedBy : Stop → Raised
  | .killed => .killed
  | _ => .osError

theorem wp_onWorld {α : Type} (m : M α) (Q : α → Unpacking → Prop) (E : Raised → Unpacking → Prop)
    (s : Unpacking) : wp (onWorld m) Q E s ↔ wp m (fun a w => Q a { s with world := w })
      (fun stop w => E (raisedBy stop) { s with world := w }) s.world := by
  unfold wp onWorld
  cases m s.world with
  | ok a w => rfl
  | error stop w => cases stop <;> rfl

theorem wp_os {α : Type} {strings : List Bytes} (hzero : ∀ t ∈ strings, 0 ∉ t) (m : M α)
    (Q : α → Unpacking → Prop) (E : Raised → Unpacking → Prop) (s : Unpacking) :
    wp (os strings m) Q E s ↔ wp m (fun a w => Q a { s with world := w })
      (fun stop w => E (raisedBy stop) { s with world := w }) s.world := by
  have hno : ¬ ∃ t ∈ strings, 0 ∈ t := fun ⟨t, ht, h0⟩ => hzero t ht h0
  rw [os, if_neg hno, wp_onWorld]

theorem zero_not_mem_one {t : Bytes} (h : 0 ∉ t) : ∀ t' ∈ [t], 0 ∉ t' :=
  List.forall_mem_singleton.mpr h

theorem zero_not_mem_two {t t' : Bytes} (h : 0 ∉ t) (h' : 0 ∉ t') : ∀ t'' ∈ [t, t'], 0 ∉ t'' :=
  List.forall_mem_cons.mpr ⟨h, zero_not_mem_one h'⟩

theorem wp_warn (Q : Unit → Unpacking → Prop) (E : Raised → Unpacking → Prop) (s : Unpacking) :
    wp (onGlobals warn) Q E s ↔ Q () { s with warnings := s.warnings + 1 } := Iff.rfl

theorem wp_item (details : Pairs) (k : String) (Q : Bytes → Unpacking → Prop)
    (E : Raised → Unpacking → Prop) (s : Unpacking) : wp (item details k) Q E s ↔
      match details.lookup (lit k) with
      | none => E (.py .keyError) s
      | some v => Q v s := by
  unfold item
  cases details.lookup (lit k) <;> rfl

theorem wp_int (base : Nat) (t : Bytes) (Q : Int → Unpacking → Prop)
    (E : Raised → Unpacking → Prop) (s : Unpacking) : wp (int base t) Q E s ↔
      match pyInt base t with
      | none => E (.py .valueError) s
      | some n => Q n s := by
  unfold int
  cases pyInt base t <;> rfl

theorem wp_cInt (bits : Nat) (n : Int) (Q : Unit → Unpacking → Prop)
    (E : Raised → Unpacking → Prop) (s : Unpacking) : wp (cInt bits n) Q E s ↔
      if Fits bits n then Q () s else E .overflowError s := by
  unfold cInt Fits
  rw [wp_ite]
  rfl

/-! ### Warnings -/

/-- There are no fewer warnings. -/
def Grows (s s' : Unpacking) : Prop := s.warnings ≤ s'.warnings

instance : Std.Refl Grows := ⟨fun _ => Nat.le_refl _⟩

instance : IsTrans Unpacking Grows := ⟨fun _ _ _ => Nat.le_trans⟩

/-- There have been no warnings, and `P` holds; or there has been one, with the reason `X`. -/
def Fine (X : Prop) (P : Unpacking → Prop) (s : Unpacking) : Prop :=
  s.warnings = 0 ∧ P s ∨ 0 < s.warnings ∧ X

/-- After a warning nothing more is known. -/
theorem wp_bind_fine {α β : Type} {x : Unpack α} {f : α → Unpack β} {P : α → Unpacking → Prop}
    {Q : β → Unpacking → Prop} (hx : wp x (fun a => Fine X (P a)) (fun _ _ => X) s)
    (hf : ∀ a s', s'.warnings = 0 → P a s' → wp (f a) (fun b => Fine X (Q b)) (fun _ _ => X) s')
    (hgrows : ∀ a, Frames Grows (f a)) : wp (x >>= f) (fun b => Fine X (Q b)) (fun _ _ => X) s := by
  rw [wp_bind]
  refine wp_mono hx ?_ fun _ _ h => h
  rintro a s' (⟨hzero, hP⟩ | ⟨hpos, hX⟩)
  · exact hf a s' hzero hP
  · exact wp_mono (hgrows a s') (fun _ _ h => .inr ⟨Nat.lt_of_lt_of_le hpos h, hX⟩) fun _ _ _ => hX

/-- What the line does not provide is a reason. -/
theorem lacking {α : Type} {P : Prop} {o : Option α} (hX : ¬ (Smooth cfg ∧ P) → X)
    (hsome : P → o.isSome) (hnone : o = none) : X :=
  hX fun h => by
    have hsome := hsome h.2
    rw [hnone] at hsome
    cases hsome

/-- What goes wrong becomes a warning. -/
theorem wp_try_warn {fn : Unpack Unit} {P : Unpacking → Prop}
    (h : wp fn (fun _ s' => s'.warnings = 0 ∧ P s') (fun _ _ => X) s) :
    wp (try_warn fn) (fun _ => Fine X P) (fun _ _ => X) s := by
  rw [try_warn, excepting, wp_tryCatch]
  refine wp_mono h (fun _ _ h => .inl h) ?_
  intro e s' hX
  cases e with
  | killed => exact hX
  | _ =>
    rw [wp_warn]
    exact .inr ⟨Nat.succ_pos _, hX⟩

theorem grows_onWorld {α : Type} (m : M α) : Frames Grows (onWorld m) := by
  intro s
  rw [wp_onWorld]
  refine (wp_stateAfter m _ _).mpr ?_
  exact Nat.le_refl _

theorem grows_os {α : Type} (strings : List Bytes) (m : M α) : Frames Grows (os strings m) :=
  Frames.ite (Frames.throw _) (grows_onWorld m)

theorem grows_warn : Frames Grows (onGlobals warn) := fun _ => Nat.le_succ _

theorem grows_item (details : Pairs) (k : String) : Frames Grows (item details k) := by
  unfold item
  split
  · exact Frames.throw _
  · exact Frames.pure _

theorem grows_int (base : Nat) (t : Bytes) : Frames Grows (int base t) := by
  unfold int
  split
  · exact Frames.throw _
  · exact Frames.pure _

theorem grows_cInt (bits : Nat) (n : Int) : Frames Grows (cInt bits n) :=
  Frames.ite (Frames.pure _) (Frames.throw _)

theorem grows_excepting {α : Type} {x handler : Unpack α} (h : Frames Grows x)
    (h' : Frames Grows handler) : Frames Grows (excepting x handler) := by
  refine Frames.tryCatch h fun e => ?_
  cases e with
  | killed => exact Frames.throw _
  | _ => exact h'

theorem grows_orFalse {x : Unpack Bool} (h : Frames Grows x) : Frames Grows (orFalse x) := by
  refine Frames.tryCatch h fun e => ?_
  cases e with
  | osError => exact Frames.pure _
  | _ => exact Frames.throw _

theorem grows_try_warn {fn : Unpack Unit} (h : Frames Grows fn) : Frames Grows (try_warn fn) :=
  grows_excepting h grows_warn

theorem grows_name2uid (name : Bytes) : Frames Grows (name2uid cfg name) := by
  refine Frames.get_bind fun s => ?_
  split
  · exact Frames.pure _
  split
  · exact Frames.bind (fun _ => Nat.le_refl _) fun _ => Frames.pure _
  split
  · exact Frames.throw _
  · exact Frames.bind (fun _ => Nat.le_refl _) fun _ => Frames.pure _

theorem grows_name2gid (name : Bytes) : Frames Grows (name2gid cfg name) := by
  refine Frames.get_bind fun s => ?_
  split
  · exact Frames.pure _
  split
  · exact Frames.bind (fun _ => Nat.le_refl _) fun _ => Frames.pure _
  split
  · exact Frames.throw _
  · exact Frames.bind (fun _ => Nat.le_refl _) fun _ => Frames.pure _

theorem grows_setMode (path : Bytes) : Frames Grows (setMode cfg details path) :=
  grows_try_warn <| Frames.bind (grows_item _ _) fun _ => Frames.bind (grows_int _ _) fun _ =>
    Frames.bind (grows_cInt _ _) fun _ => grows_os _ _

theorem grows_setOwner (path : Bytes) : Frames Grows (setOwner cfg details path) :=
  grows_try_warn <| Frames.bind (grows_item _ _) fun _ => Frames.bind (grows_name2uid _) fun _ =>
    Frames.bind (grows_item _ _) fun _ => Frames.bind (grows_name2gid _) fun _ =>
    Frames.bind (grows_cInt _ _) fun _ => Frames.bind (grows_cInt _ _) fun _ => grows_os _ _

theorem grows_setTimes (path : Bytes) : Frames Grows (setTimes cfg details path) :=
  Frames.bind (grows_item _ _) fun _ => Frames.bind (grows_int _ _) fun _ =>
    Frames.bind (grows_item _ _) fun _ => Frames.bind (grows_int _ _) fun _ =>
    Frames.bind (grows_cInt _ _) fun _ => Frames.bind (grows_cInt _ _) fun _ => grows_os _ _

theorem grows_setAttributes (path : Bytes) : Frames Grows (setAttributes cfg details path) :=
  Frames.bind (grows_setMode _) fun _ => Frames.bind (grows_item _ _) fun _ =>
    Frames.bind (grows_item _ _) fun _ => Frames.bind (grows_setOwner _) fun _ =>
    grows_try_warn (grows_setTimes _)

/-! ### Attributes -/

/-- The numbers remembered are right. -/
structure Knows (cfg : Config) (s : Unpacking) : Prop where
  uid : ∀ name n, s.uids.lookup name = some n → idFor cfg.users.getpwnam name = some n
  gid : ∀ name n, s.gids.lookup name = some n → idFor cfg.users.getgrnam name = some n

/-- Nothing has changed but what is remembered. -/
structure Learned (cfg : Config) (s s' : Unpacking) : Prop where
  world : s'.world = s.world
  inodes : s'.inodes = s.inodes
  warnings : s'.warnings = s.warnings
  knows : Knows cfg s'

theorem Knows.wp_name2uid (h : Knows cfg s) (name : Bytes) :
    wp (name2uid cfg name)
      (fun n s' => idFor cfg.users.getpwnam name = some n ∧ Learned cfg s s')
      (fun _ _ => idFor cfg.users.getpwnam name = none) s := by
  unfold name2uid idFor
  rw [wp_bind, wp_get]
  cases hl : s.uids.lookup name with
  | some n => exact ⟨h.uid name n hl, rfl, rfl, rfl, h⟩
  | none =>
    cases hint : pyInt 10 name with
    | some n =>
      have hid : idFor cfg.users.getpwnam name = some n := by rw [idFor, hint, Option.some_or]
      exact ⟨rfl, rfl, rfl, rfl, fun _ _ => lookup_cons (g := some) hid (h.uid _ _), h.gid⟩
    | none =>
      cases hname : cfg.users.getpwnam name with
      | none => rfl
      | some uid =>
        have hid : idFor cfg.users.getpwnam name = some (uid.toNat : Int) := by
          rw [idFor, hint, hname]
          rfl
        exact ⟨rfl, rfl, rfl, rfl, fun _ _ => lookup_cons (g := some) hid (h.uid _ _), h.gid⟩

theorem Knows.wp_name2gid (h : Knows cfg s) (name : Bytes) :
    wp (name2gid cfg name)
      (fun n s' => idFor cfg.users.getgrnam name = some n ∧ Learned cfg s s')
      (fun _ _ => idFor cfg.users.getgrnam name = none) s := by
  unfold name2gid idFor
  rw [wp_bind, wp_get]
  cases hl : s.gids.lookup name with
  | some n => exact ⟨h.gid name n hl, rfl, rfl, rfl, h⟩
  | none =>
    cases hint : pyInt 10 name with
    | some n =>
      have hid : idFor cfg.users.getgrnam name = some n := by rw [idFor, hint, Option.some_or]
      exact ⟨rfl, rfl, rfl, rfl, h.uid, fun _ _ => lookup_cons (g := some) hid (h.gid _ _)⟩
    | none =>
      cases hname : cfg.users.getgrnam name with
      | none => rfl
      | some gid =>
        have hid : idFor cfg.users.getgrnam name = some (gid.toNat : Int) := by
          rw [idFor, hint, hname]
          rfl
        exact ⟨rfl, rfl, rfl, rfl, h.uid, fun _ _ => lookup_cons (g := some) hid (h.gid _ _)⟩

/-- `ino` has been made under the name `tmp`, since `s₀`. -/
structure Shaping (cfg : Config) (tmp : List Bytes) (s₀ : Unpacking) (ino : Inode) (s : Unpacking) :
    Prop where
  making : Making cfg tmp s₀.world ino s.world
  inodes : s.inodes = s₀.inodes
  warnings : s.warnings = 0
  knows : Knows cfg s

variable {path : Bytes} {s₀ : Unpacking} {ino : Inode}

theorem Shaping.learned {tmp : List Bytes} (h : Shaping cfg tmp s₀ ino s) (hl : Learned cfg s s') :
    Shaping cfg tmp s₀ ino s' :=
  ⟨hl.world ▸ h.making, hl.inodes.trans h.inodes, hl.warnings.trans h.warnings, hl.knows⟩

/-- A call that changes what has been made. -/
theorem Shaping.wp_change (h : Shaping cfg (components path) s₀ ino s) (h0 : 0 ∉ path)
    (hsmooth : ¬ Smooth cfg → X) {doing : String} {f : Int64 → Target → Except Errno Target}
    {g : Inode → Inode}
    (hf : ∀ now t i, t.names.lookup (components path) = some i → f now t = .ok (t.update i g)) :
    wp (os [path] (Hostfs.change cfg doing path f))
      (fun _ s' => Shaping cfg (components path) s₀ (g ino) s') (fun _ _ => X) s := by
  rw [wp_os (zero_not_mem_one h0)]
  refine wp_mono (h.making.wp_change hf) (fun _ w' h' => ?_) fun _ _ hstop => hsmooth hstop.2
  exact ⟨h', h.inodes, h.warnings, h.knows.uid, h.knows.gid⟩

/-- The permission bits. -/
theorem Shaping.wp_setMode (h : Shaping cfg (components path) s₀ ino s) (h0 : 0 ∉ path)
    (hsmooth : ¬ Smooth cfg → X) (hmode : modeFor details = none → X) :
    wp (setMode cfg details path)
      (fun _ => Fine X fun s' => ∃ mode, modeFor details = some mode ∧
        Shaping cfg (components path) s₀ { ino with mode := mode &&& 0o7777 } s')
      (fun _ _ => X) s := by
  apply wp_try_warn
  unfold modeFor cValue at hmode ⊢
  rw [wp_bind, wp_item]
  cases hperms : details.lookup (lit "perms") with
  | none => exact hmode (by rw [hperms]; rfl)
  | some t =>
    dsimp only
    rw [wp_bind, wp_int]
    cases hint : pyInt 8 t with
    | none => exact hmode (by rw [hperms, Option.bind_some, hint]; rfl)
    | some n =>
      dsimp only
      rw [wp_bind, wp_cInt]
      by_cases hfits : Fits 32 n
      · rw [if_pos hfits]
        have hvalue : ((some t).bind fun t => (pyInt 8 t).bind fun n =>
            if Fits 32 n then some n else none).map UInt32.ofInt = some (UInt32.ofInt n) := by
          rw [Option.bind_some, hint, Option.bind_some, if_pos hfits]
          rfl
        refine wp_mono (h.wp_change h0 hsmooth fun now t i hi => change_eq _ hi) ?_ fun _ _ h => h
        intro _ s' h'
        exact ⟨h'.warnings, _, hvalue, h'⟩
      · rw [if_neg hfits]
        exact hmode (by rw [hperms, Option.bind_some, hint, Option.bind_some, if_neg hfits]; rfl)

theorem ownerFor_of_lookup {getid : Bytes → Option UInt32} {k : String} {name : Bytes}
    (h : details.lookup (lit k) = some name) : ownerFor getid details k =
      ((idFor getid name).bind fun n => if Fits 32 n then some n else none).map UInt32.ofInt := by
  rw [ownerFor, h, Option.bind_some, ownerId]

theorem timeFor_of_lookup {k : String} {t : Bytes} (h : details.lookup (lit k) = some t) :
    timeFor details k =
      ((pyInt 10 t).bind fun n => if Fits 64 n then some n else none).map Int64.ofInt := by
  rw [timeFor, h, Option.bind_some, cValue]

/-- The owner of what has been made. -/
def Inode.owned (ino : Inode) (uid gid : UInt32) : Inode :=
  { ino with uid, gid, mode := if ino.body = .dir then ino.mode else ino.mode &&& 0o1777 }

/-- The owner. -/
theorem Shaping.wp_setOwner (h : Shaping cfg (components path) s₀ ino s) (h0 : 0 ∉ path)
    (hsmooth : ¬ Smooth cfg → X) (huid : ownerFor cfg.users.getpwnam details "uid" = none → X)
    (hgid : ownerFor cfg.users.getgrnam details "gid" = none → X) :
    wp (setOwner cfg details path)
      (fun _ => Fine X fun s' => ∃ uid gid, ownerFor cfg.users.getpwnam details "uid" = some uid ∧
        ownerFor cfg.users.getgrnam details "gid" = some gid ∧
        Shaping cfg (components path) s₀ (Inode.owned ino uid gid) s')
      (fun _ _ => X) s := by
  apply wp_try_warn
  rw [wp_bind, wp_item]
  -- what stops it on the way is a name that is not there, not known, or no C integer
  cases huname : details.lookup (lit "uid") with
  | none => exact huid (by rw [ownerFor, huname]; rfl)
  | some uname =>
    rw [ownerFor_of_lookup huname] at huid ⊢
    dsimp only
    rw [wp_bind]
    refine wp_mono (h.knows.wp_name2uid uname) ?_ fun _ _ hnone => huid (by rw [hnone]; rfl)
    rintro uid s₁ ⟨hid, hlearned⟩
    have h₁ := h.learned hlearned
    rw [hid, Option.bind_some] at huid ⊢
    rw [wp_bind, wp_item]
    cases hgname : details.lookup (lit "gid") with
    | none => exact hgid (by rw [ownerFor, hgname]; rfl)
    | some gname =>
      rw [ownerFor_of_lookup hgname] at hgid ⊢
      dsimp only
      rw [wp_bind]
      refine wp_mono (h₁.knows.wp_name2gid gname) ?_ fun _ _ hnone => hgid (by rw [hnone]; rfl)
      rintro gid s₂ ⟨hid₂, hlearned₂⟩
      have h₂ := h₁.learned hlearned₂
      rw [hid₂, Option.bind_some] at hgid ⊢
      rw [wp_bind, wp_cInt]
      by_cases hu : Fits 32 uid
      swap
      · rw [if_neg hu]
        exact huid (by rw [if_neg hu]; rfl)
      rw [if_pos hu, wp_bind, wp_cInt]
      by_cases hg : Fits 32 gid
      swap
      · rw [if_neg hg]
        exact hgid (by rw [if_neg hg]; rfl)
      rw [if_pos hg]
      refine wp_mono (h₂.wp_change h0 hsmooth fun now t i hi => change_eq _ hi) ?_ fun _ _ h => h
      intro _ s₃ h₃
      exact ⟨h₃.warnings, _, _, by rw [if_pos hu]; rfl, by rw [if_pos hg]; rfl, h₃⟩

/-- The times. -/
theorem Shaping.wp_setTimes (h : Shaping cfg (components path) s₀ ino s) (h0 : 0 ∉ path)
    (hsmooth : ¬ Smooth cfg → X) (hatime : timeFor details "atime" = none → X)
    (hmtime : timeFor details "mtime" = none → X) :
    wp (setTimes cfg details path)
      (fun _ s' => s'.warnings = 0 ∧ ∃ atime mtime, timeFor details "atime" = some atime ∧
        timeFor details "mtime" = some mtime ∧
        Shaping cfg (components path) s₀ { ino with atime, mtime } s')
      (fun _ _ => X) s := by
  unfold setTimes
  rw [wp_bind, wp_item]
  -- each of the four steps may raise an exception, and is named in `X` where it does
  cases ha : details.lookup (lit "atime") with
  | none => exact hatime (by rw [timeFor, ha]; rfl)
  | some at_ =>
    rw [timeFor_of_lookup ha] at hatime ⊢
    dsimp only
    rw [wp_bind, wp_int]
    cases hai : pyInt 10 at_ with
    | none => exact hatime (by rw [hai]; rfl)
    | some atime =>
      rw [hai, Option.bind_some] at hatime
      rw [Option.bind_some]
      dsimp only
      rw [wp_bind, wp_item]
      cases hm : details.lookup (lit "mtime") with
      | none => exact hmtime (by rw [timeFor, hm]; rfl)
      | some mt =>
        rw [timeFor_of_lookup hm] at hmtime ⊢
        dsimp only
        rw [wp_bind, wp_int]
        cases hmi : pyInt 10 mt with
        | none => exact hmtime (by rw [hmi]; rfl)
        | some mtime =>
          rw [hmi, Option.bind_some] at hmtime
          rw [Option.bind_some]
          dsimp only
          rw [wp_bind, wp_cInt]
          by_cases hfa : Fits 64 atime
          swap
          · rw [if_neg hfa]
            exact hatime (by rw [if_neg hfa]; rfl)
          rw [if_pos hfa, wp_bind, wp_cInt]
          by_cases hfm : Fits 64 mtime
          swap
          · rw [if_neg hfm]
            exact hmtime (by rw [if_neg hfm]; rfl)
          rw [if_pos hfm]
          refine wp_mono (h.wp_change h0 hsmooth fun now t i hi => change_eq _ hi) ?_ fun _ _ h => h
          intro _ s' h'
          exact ⟨h'.warnings, _, _, by rw [if_pos hfa]; rfl, by rw [if_pos hfm]; rfl, h'⟩

/-- The owner is on the line. -/
theorem wp_item_owner {α : Type} {k : String} {getid : Bytes → Option UInt32} {f : Bytes → Unpack α}
    {Q : α → Unpacking → Prop} (hnone : ownerFor getid details k = none → X)
    (hf : ∀ name, wp (f name) Q (fun _ _ => X) s) : wp (item details k >>= f) Q (fun _ _ => X) s := by
  rw [wp_bind, wp_item]
  cases hk : details.lookup (lit k) with
  | none => exact hnone (by rw [ownerFor, hk]; rfl)
  | some name => exact hf name

/-- **The attributes of a file** that is no directory. -/
theorem Shaping.wp_setAttributes {store : Store} (h : Shaping cfg (components path) s₀ ino s)
    (h0 : 0 ∉ path) (hX : ¬ (Smooth cfg ∧ Provided cfg store details) → X)
    (hlink : ¬ HasType details "link") (hbody : bodyFor cfg.repo store details = some ino.body) (hdir : ino.body ≠ .dir) :
    wp (setAttributes cfg details path)
      (fun _ => Fine X fun s' => ∃ ino', Right cfg store details ino' ∧
        Shaping cfg (components path) s₀ ino' s')
      (fun _ _ => X) s := by
  have hsmooth : ¬ Smooth cfg → X := fun hno => hX fun h => hno h.1
  have huid : ownerFor cfg.users.getpwnam details "uid" = none → X := lacking hX fun h => h.uid
  have hgid : ownerFor cfg.users.getgrnam details "gid" = none → X := lacking hX fun h => h.gid
  unfold setAttributes
  refine wp_bind_fine (h.wp_setMode h0 hsmooth (lacking hX fun h => h.mode hlink)) ?_ fun _ =>
    Frames.bind (grows_item _ _) fun _ => Frames.bind (grows_item _ _) fun _ =>
    Frames.bind (grows_setOwner _) fun _ => grows_try_warn (grows_setTimes _)
  rintro _ s₁ - ⟨mode, hmode, h₁⟩
  refine wp_item_owner huid fun _ => wp_item_owner hgid fun _ => ?_
  refine wp_bind_fine (h₁.wp_setOwner h0 hsmooth huid hgid) ?_ fun _ => grows_try_warn (grows_setTimes _)
  rintro _ s₂ - ⟨uid, gid, huid', hgid', h₂⟩
  apply wp_try_warn
  refine wp_mono (h₂.wp_setTimes h0 hsmooth (lacking hX fun h => h.atime hlink)
    (lacking hX fun h => h.mtime hlink)) ?_ fun _ _ h => h
  rintro _ s₃ ⟨hzero, atime, mtime, hatime, hmtime, h₃⟩
  have hright : Right cfg store details
      { Inode.owned { ino with mode := mode &&& 0o7777 } uid gid with atime, mtime } := by
    refine ⟨hbody, huid', hgid', fun _ => ?_, fun _ _ => ⟨hatime, hmtime⟩⟩
    rw [hmode, Option.map_some]
    unfold Inode.owned
    dsimp only
    rw [if_neg hdir, if_neg hdir, UInt32.and_assoc]
    rfl
  exact ⟨hzero, _, hright, h₃⟩

/-! ### Contents -/

/-- Before something is made. -/
structure Ready (cfg : Config) (s : Unpacking) : Prop where
  ok : s.world.target.Ok
  warnings : s.warnings = 0
  knows : Knows cfg s

/-- A file holds what has been written to it. -/
def Filling (cfg : Config) (tmp : List Bytes) (s₀ : Unpacking) (t : Bytes) (s : Unpacking) : Prop :=
  ∃ ino, ino.body = .file t ∧ Shaping cfg tmp s₀ ino s

theorem Ready.wp_openWrite (h : Ready cfg s) (h0 : 0 ∉ path) (hsmooth : ¬ Smooth cfg → X)
    (hclear : Clear s.world.target (components path)) :
    wp (os [path] (Hostfs.openWrite cfg path))
      (fun i s' => i = s.world.target.inodes.length ∧ Filling cfg (components path) s [] s')
      (fun _ _ => X) s := by
  rw [wp_os (zero_not_mem_one h0)]
  refine wp_mono (wp_openWrite_host path h.ok (.inl hclear.free)) ?_
    fun _ _ hstop => hsmooth fun hs => hstop.2 hs hclear
  rintro i w' ⟨hi, -, ino, hbody, hmaking⟩
  exact ⟨hi, ino, hbody, hmaking, rfl, h.warnings, h.knows.uid, h.knows.gid⟩

theorem Filling.wp_writebytes {t : Bytes} (h : Filling cfg (components path) s₀ t s)
    (hsmooth : ¬ Smooth cfg → X) (block : Bytes) :
    wp (onWorld (Hostfs.writebytes cfg path s₀.world.target.inodes.length block))
      (fun _ s' => Filling cfg (components path) s₀ (t ++ block) s') (fun _ _ => X) s := by
  obtain ⟨ino, hbody, hshaping⟩ := h
  have hholding : Holding cfg (components path) s₀.world t s.world := ⟨ino, hbody, hshaping.making⟩
  have hv := @accepts_hostfs cfg (components path) s₀.world path
  have hwrite := (wp_asVirtual _ _ _ _).mp (hv.writebytes block hholding)
  rw [wp_onWorld]
  refine wp_mono hwrite ?_ fun _ _ hstop => hsmooth hstop.2
  rintro _ w' ⟨ino', hbody', hmaking'⟩
  exact ⟨ino', hbody', hmaking', hshaping.inodes, hshaping.warnings, hshaping.knows.uid,
    hshaping.knows.gid⟩

theorem flatten_blocks : ∀ (turns : Nat) (data : Bytes), data.length ≤ turns →
    (blocks turns data).flatten = data
  | 0, data, h => by
    rw [List.length_eq_zero_iff.mp (Nat.le_zero.mp h)]
    rfl
  | turns + 1, data, h => by
    rw [blocks]
    split_ifs with hnil
    · rw [hnil]
      rfl
    · have hpos := List.length_pos_of_ne_nil hnil
      rw [List.flatten_cons, flatten_blocks turns, List.take_append_drop]
      rw [List.length_drop]
      omega

/-- The data is on the line. -/
theorem Ready.wp_writeData (h : Ready cfg s) (h0 : 0 ∉ path) (hsmooth : ¬ Smooth cfg → X)
    (hclear : Clear s.world.target (components path)) (data : Bytes) :
    wp (writeData cfg path data) (fun _ s' => Filling cfg (components path) s data s')
      (fun _ _ => X) s := by
  unfold writeData
  rw [wp_bind]
  refine wp_mono (h.wp_openWrite h0 hsmooth hclear) ?_ fun _ _ h => h
  rintro _ s₁ ⟨rfl, h₁⟩
  rw [wp_ite]
  split
  · exact h₁.wp_writebytes hsmooth data
  · rename_i hnil
    rw [not_not.mp hnil]
    exact h₁

/-- The world is another, but not its filesystems. -/
theorem Shaping.rebase {tmp : List Bytes} {n : Nat}
    (h : Shaping cfg tmp { s₀ with world := { s₀.world with clock := n } } ino s) :
    Shaping cfg tmp s₀ ino s where
  making := ⟨⟨h.making.still.store, h.making.still.errors, h.making.still.knows⟩, h.making.named,
    h.making.inode⟩
  inodes := h.inodes
  warnings := h.warnings
  knows := h.knows

/-- The contents are in the repository. -/
theorem Ready.wp_copyOut (h : Ready cfg s) (h0 : 0 ∉ path) (hsmooth : ¬ Smooth cfg → X)
    (hclear : Clear s.world.target (components path)) {src : Bytes}
    (hlost : (∀ c, s.world.store.lookup src ≠ some (.file c)) → X) :
    wp (copyOut cfg src path)
      (fun _ s' => ∃ c, s.world.store.lookup src = some (.file c) ∧
        Filling cfg (components path) s c s')
      (fun _ _ => X) s := by
  -- if a file is there, it is read to its end
  have hread : ∀ n, (∀ c, Backupfs.fileAt (cfg.env n).reads s.world.store src ≠ .ok ⟨c, none⟩) → X := by
    intro n hbad
    by_cases hs : Smooth cfg
    · refine hlost fun c hc => hbad c ?_
      unfold Backupfs.fileAt
      rw [(hs.undisturbed n).2.2, hc]
    · exact hsmooth hs
  unfold copyOut
  rw [wp_bind, wp_onWorld, Backupfs.openRead, wp_bind]
  refine wp_tick_smooth ?_ fun hs => hsmooth hs
  rw [wp_bind, wp_get, wp_liftExcept]
  dsimp only
  cases hfile : Backupfs.fileAt (cfg.env s.world.clock).reads s.world.store src with
  | error e => exact hread s.world.clock fun c => by rw [hfile]; exact fun e => by cases e
  | ok f =>
    dsimp only
    have hready : Ready cfg { s with world := { s.world with clock := s.world.clock + 1 } } :=
      ⟨h.ok, h.warnings, h.knows.uid, h.knows.gid⟩
    rw [wp_bind]
    refine wp_mono (hready.wp_openWrite h0 hsmooth hclear) ?_ fun _ _ h => h
    rintro _ s₁ ⟨rfl, h₁⟩
    rw [wp_bind]
    refine wp_mono (wp_forM (fun pre s' => Filling cfg (components path) _ pre.flatten s')
      (fun pre block post s' _ h' => ?_) h₁) ?_ fun _ _ h => h
    · refine wp_mono (h'.wp_writebytes hsmooth block) ?_ fun _ _ h => h
      intro _ s'' h''
      rw [List.flatten_append, List.flatten_singleton]
      exact h''
    rintro _ s₂ ⟨ino, hbody, h₂⟩
    rw [flatten_blocks _ _ (Nat.le_refl _)] at hbody
    rw [wp_ite]
    split
    · rename_i hfault
      refine hread s.world.clock fun c hc => ?_
      rw [hfile] at hc
      rw [Except.ok.inj hc] at hfault
      cases hfault
    · rename_i hfault
      have hnone : f.fault = none := by simpa using hfault
      exact ⟨f.rest, lookup_of_fileAt_ok hfile hnone, ino, hbody, h₂.rebase⟩

/-! ### Into place -/

theorem Right.alike {store : Store} {ino' : Inode} (h : Right cfg store details ino)
    (ha : ino.Alike ino') : Right cfg store details ino' where
  body := ha.body.symm ▸ h.body
  uid := ha.uid.symm ▸ h.uid
  gid := ha.gid.symm ▸ h.gid
  mode hl := by
    rw [ha.body, ha.mode]
    exact h.mode hl
  times hl hd := by
    rw [ha.body] at hd
    rw [ha.eq_of_ne_dir hd]
    exact h.times hl hd

/-- The object that the line provides is new, under its final name. -/
structure Put (cfg : Config) (details : Pairs) (fn : Bytes) (s₀ s : Unpacking) : Prop where
  store : s.world.store = s₀.world.store
  ok : s.world.target.Ok
  knows : Knows cfg s
  named : s₀.world.target.Named s.world.target (components fn) s₀.world.target.inodes.length
  right : ∃ ino, s.world.target.inodes[s₀.world.target.inodes.length]? = some ino ∧
    Right cfg s₀.world.store details ino

/-- Where an object is to be made. -/
structure Place (fn : Bytes) (t : Target) : Prop where
  zero : 0 ∉ fn
  slash : 47 ∈ fn
  tmp : Clear t (components (tmpname fn))
  clear : Clear t (components fn)

variable {fn : Bytes}

theorem zero_not_mem_tmpname (h : 0 ∉ fn) : 0 ∉ tmpname fn := by
  intro hm
  rcases List.mem_append.mp hm with hm | hm
  · exact h hm
  · exact absurd hm (by decide)

theorem Place.zeroTmp {t : Target} (h : Place fn t) : 0 ∉ tmpname fn := zero_not_mem_tmpname h.zero

/-- What has been made under the temporary name gets its final one. -/
theorem wp_renameMade (hmaking : Making cfg (components (tmpname fn)) s₀.world ino s.world)
    (hzero : s.warnings = 0) (hknows : Knows cfg s) (hok : s₀.world.target.Ok)
    (hplace : Place fn s₀.world.target) (hsmooth : ¬ Smooth cfg → X)
    (hright : Right cfg s₀.world.store details ino) :
    wp (os [tmpname fn, fn] (Hostfs.rename cfg (tmpname fn) fn))
      (fun _ s' => s'.warnings = 0 ∧ s'.inodes = s.inodes ∧ Put cfg details fn s₀ s')
      (fun _ _ => X) s := by
  obtain ⟨htmp, hne, hout⟩ := tmp_apart hplace.zero hplace.slash
  rw [wp_os (zero_not_mem_two hplace.zeroTmp hplace.zero), Hostfs.rename]
  apply Hbackup.wp_change
  · intro t hrename
    rcases hmaking.named.rename hok htmp hplace.tmp.free hplace.tmp.parent hne hout hrename with
      ⟨hold, -⟩ | ⟨hparent, hfull, hempty, hnamed, hsame, -⟩
    · -- the inode is new
      rw [hplace.clear.free] at hold
      cases hold
    obtain ⟨ino', hino', halike⟩ := hsame _ _ hmaking.inode
    refine ⟨hzero, rfl, hmaking.still.store, ?_, ⟨hknows.uid, hknows.gid⟩, hnamed,
      ino', hino', hright.alike halike⟩
    exact hnamed.ok hok hfull (by rw [hino']; rfl) hparent hempty
  · intro stop hstop
    refine hsmooth fun hs => ?_
    obtain ⟨e, he⟩ := hstop hs
    obtain ⟨t, ht⟩ := hmaking.named.rename_ok (cfg.env s.world.clock).now hok hplace.clear.ne_nil
      hplace.clear.parent hplace.tmp.free hplace.clear.free htmp hne hout
    rw [ht] at he
    cases he

/-- The inode numbers after an object has been put in its place. -/
def Entered (details : Pairs) (fn : Bytes) (s s' : Unpacking) : Prop :=
  ∀ n, s'.inodes.lookup n =
    if details.lookup (lit "type") = none ∧ details.lookup (lit "inode") = some n then some fn
    else s.inodes.lookup n

theorem lookup_filter_ne {table : Pairs} {k k' : Bytes} (h : k' ≠ k) :
    (table.filter (·.1 ≠ k)).lookup k' = table.lookup k' := by
  induction table with
  | nil => rfl
  | cons kv table ih =>
    obtain ⟨k₁, v⟩ := kv
    rw [List.filter_cons]
    split_ifs with hk
    · rw [List.lookup_cons, List.lookup_cons, ih]
    · have hk : k₁ = k := by simpa using hk
      have hne : (k' == k₁) = false := by simpa [hk] using h
      rw [List.lookup_cons, hne, ih]

/-- The contents of a regular file are those that the line provides. -/
theorem Ready.wp_fillRegular (h : Ready cfg s) (h0 : 0 ∉ path)
    (hclear : Clear s.world.target (components path))
    (htype : details.lookup (lit "type") = none)
    (hX : ¬ (Smooth cfg ∧ Provided cfg s.world.store details) → X) :
    wp (fillRegular cfg details path)
      (fun _ => Fine X fun s' => ∃ ino, bodyFor cfg.repo s.world.store details = some ino.body ∧
        ino.body ≠ .dir ∧ Shaping cfg (components path) s ino s')
      (fun _ _ => X) s := by
  have hsmooth : ¬ Smooth cfg → X := fun hno => hX fun h => hno h.1
  have hbody : bodyFor cfg.repo s.world.store details = none → X := lacking hX fun h => h.body
  -- a file with the contents for the line will do
  have hfilled : ∀ {c : Bytes} {s' : Unpacking},
      bodyFor cfg.repo s.world.store details = some (.file c) →
      Filling cfg (components path) s c s' → Fine X (fun s' => ∃ ino,
        bodyFor cfg.repo s.world.store details = some ino.body ∧ ino.body ≠ .dir ∧
          Shaping cfg (components path) s ino s') s' := by
    rintro c s' hc ⟨ino, hino, hshaping⟩
    rw [← hino] at hc
    refine .inl ⟨hshaping.warnings, ino, hc, ?_, hshaping⟩
    rw [hino]
    simp
  unfold bodyFor at hbody hfilled ⊢
  unfold fillRegular
  rw [htype] at hbody hfilled ⊢
  dsimp only at hbody hfilled ⊢
  -- an object of the repository, data on the line, or neither
  cases hhash : details.lookup HASH_NAME with
  | some hash =>
    rw [hhash] at hbody hfilled
    dsimp only at hbody hfilled ⊢
    refine wp_mono (h.wp_copyOut h0 hsmooth hclear fun hlost => hbody ?_) ?_ fun _ _ h => h
    · split
      · rename_i c hc
        exact absurd hc (hlost c)
      · rfl
    · rintro _ s' ⟨c, hc, hfilling⟩
      exact hfilled (by rw [hc]) hfilling
  | none =>
    rw [hhash] at hbody hfilled
    dsimp only at hbody hfilled ⊢
    cases hdata : details.lookup (lit "data") with
    | some data =>
      rw [hdata] at hfilled
      exact wp_mono (h.wp_writeData h0 hsmooth hclear data) (fun _ _ h => hfilled rfl h) fun _ _ h => h
    | none =>
      rw [hdata] at hbody
      rw [wp_warn]
      exact .inr ⟨Nat.succ_pos _, hbody rfl⟩

theorem grows_enterInode (fn : Bytes) : Frames Grows (enterInode details fn) := by
  unfold enterInode
  split
  · exact fun _ => Nat.le_refl _
  · exact Frames.pure _

/-- A regular file. -/
theorem Ready.wp_unpackRegular (h : Ready cfg s) (hplace : Place fn s.world.target)
    (htype : details.lookup (lit "type") = none)
    (hX : ¬ (Smooth cfg ∧ Provided cfg s.world.store details) → X) :
    wp (unpackRegular cfg details fn)
      (fun _ => Fine X fun s' => Put cfg details fn s s' ∧ Entered details fn s s')
      (fun _ _ => X) s := by
  have hsmooth : ¬ Smooth cfg → X := fun hno => hX fun h => hno h.1
  have hlink : ¬ HasType details "link" := by
    intro hlink
    rw [hlink] at htype
    cases htype
  unfold unpackRegular
  refine wp_bind_fine (h.wp_fillRegular hplace.zeroTmp hplace.tmp htype hX) ?_ fun _ =>
    Frames.bind (grows_setAttributes _) fun _ => Frames.bind (grows_enterInode _) fun _ => grows_os _ _
  rintro _ s₁ - ⟨ino, hbody, hdir, h₁⟩
  refine wp_bind_fine (h₁.wp_setAttributes hplace.zeroTmp hX hlink hbody hdir) ?_ fun _ =>
    Frames.bind (grows_enterInode _) fun _ => grows_os _ _
  rintro _ s₂ - ⟨ino₂, hright, h₂⟩
  -- the file is complete; what is left is the rename, with the table of inodes as it may be
  have hrename : ∀ s₃ : Unpacking, s₃.world = s₂.world → s₃.warnings = s₂.warnings → Knows cfg s₃ →
      Entered details fn s s₃ →
      wp (os [tmpname fn, fn] (Hostfs.rename cfg (tmpname fn) fn))
        (fun _ => Fine X fun s' => Put cfg details fn s s' ∧ Entered details fn s s')
        (fun _ _ => X) s₃ := by
    intro s₃ hworld hwarn hknows hentered
    refine wp_mono (wp_renameMade (hworld ▸ h₂.making) (hwarn.trans h₂.warnings) hknows h.ok hplace
      hsmooth hright) ?_ fun _ _ h => h
    rintro _ s₄ ⟨hzero, hinodes, hput⟩
    exact .inl ⟨hzero, hput, fun n => hinodes ▸ hentered n⟩
  unfold enterInode
  cases hinode : details.lookup (lit "inode") with
  | none =>
    refine hrename s₂ rfl rfl h₂.knows fun n => ?_
    rw [hinode, if_neg (by simp), h₂.inodes]
  | some inode =>
    refine hrename _ rfl rfl ⟨h₂.knows.uid, h₂.knows.gid⟩ fun n => ?_
    rw [hinode, htype]
    dsimp only
    -- the table has the new name for this inode, and the old ones for the others
    by_cases hn : n = inode
    · rw [hn, if_pos ⟨rfl, rfl⟩, List.lookup_cons_self]
    · have hne : (n == inode) = false := by simpa using hn
      rw [if_neg (by simp [Ne.symm hn]), List.lookup_cons, hne]
      dsimp only
      rw [lookup_filter_ne hn, h₂.inodes]

/-- Something new is made. -/
theorem Ready.wp_create (h : Ready cfg s) {strings : List Bytes} (hzero : ∀ t ∈ strings, 0 ∉ t)
    (hsmooth : ¬ Smooth cfg → X) (hclear : Clear s.world.target (components path)) {doing : String}
    {file : Bytes} {new : Int64 → Inode} {f : Int64 → Target → Except Errno Target}
    (hf : ∀ now t, f now t = t.create now (components path) (new now)) :
    wp (os strings (Hostfs.change cfg doing file f))
      (fun _ s' => ∃ now, Shaping cfg (components path) s (new now) s') (fun _ _ => X) s := by
  rw [wp_os hzero]
  refine wp_mono (Hbackup.wp_create h.ok hf) ?_
    fun _ _ hstop => hsmooth fun hs => hstop.2.2.2.2 hs hclear
  rintro _ w' ⟨-, now, hmaking⟩
  exact ⟨now, hmaking, rfl, h.warnings, h.knows.uid, h.knows.gid⟩

/-- What is complete, and no regular file, gets its final name. -/
theorem Shaping.wp_finish (h : Shaping cfg (components (tmpname fn)) s₀ ino s)
    (hok : s₀.world.target.Ok) (hplace : Place fn s₀.world.target) (hsmooth : ¬ Smooth cfg → X)
    (htype : details.lookup (lit "type") ≠ none) (hright : Right cfg s₀.world.store details ino) :
    wp (os [tmpname fn, fn] (Hostfs.rename cfg (tmpname fn) fn))
      (fun _ => Fine X fun s' => Put cfg details fn s₀ s' ∧ Entered details fn s₀ s')
      (fun _ _ => X) s := by
  refine wp_mono (wp_renameMade h.making h.warnings h.knows hok hplace hsmooth hright) ?_
    fun _ _ h => h
  rintro _ s' ⟨hzero, hinodes, hput⟩
  refine .inl ⟨hzero, hput, fun n => ?_⟩
  rw [if_neg fun h => htype h.1, hinodes, h.inodes]

/-- A symbolic link. -/
theorem Ready.wp_unpackLink (h : Ready cfg s) (hplace : Place fn s.world.target)
    (htype : HasType details "link")
    (hX : ¬ (Smooth cfg ∧ Provided cfg s.world.store details) → X) :
    wp (unpackLink cfg details fn)
      (fun _ => Fine X fun s' => Put cfg details fn s s' ∧ Entered details fn s s')
      (fun _ _ => X) s := by
  have hsmooth : ¬ Smooth cfg → X := fun hno => hX fun h => hno h.1
  have hbody : bodyFor cfg.repo s.world.store details =
      (details.lookup (lit "target")).bind fun t => if 0 ∈ t then none else some (.link t) := by
    rw [bodyFor, htype]
    exact if_pos rfl
  unfold unpackLink
  dsimp only
  rw [wp_bind, wp_item]
  cases htarget : details.lookup (lit "target") with
  | none => exact lacking hX (fun h => h.body) (by rw [hbody, htarget]; rfl)
  | some target =>
    rw [htarget, Option.bind_some] at hbody
    dsimp only
    rw [wp_bind]
    by_cases ht : 0 ∈ target
    · rw [if_pos ht] at hbody
      rw [os, if_pos ⟨target, List.mem_cons_self, ht⟩]
      exact lacking hX (fun h => h.body) hbody
    rw [if_neg ht, ← cstr_eq ht] at hbody
    refine wp_mono (h.wp_create (zero_not_mem_two ht hplace.zeroTmp) hsmooth hplace.tmp fun _ _ => rfl)
      ?_ fun _ _ h => h
    rintro _ s₁ ⟨now, h₁⟩
    refine wp_bind_fine (h₁.wp_setOwner hplace.zeroTmp hsmooth (lacking hX fun h => h.uid)
      (lacking hX fun h => h.gid)) ?_ fun _ => grows_os _ _
    rintro _ s₂ - ⟨uid, gid, huid, hgid, h₂⟩
    refine h₂.wp_finish h.ok hplace hsmooth (by rw [htype]; simp) ?_
    exact ⟨hbody, huid, hgid, fun hno => absurd htype hno, fun hno _ => absurd htype hno⟩

/-- A device. -/
theorem Ready.wp_unpackDevice {tp : UInt32} (h : Ready cfg s) (hplace : Place fn s.world.target)
    (htype : details.lookup (lit "type") ≠ none) (hlink : ¬ HasType details "link")
    (hbody : bodyFor cfg.repo s.world.store details = deviceFor details tp)
    (hX : ¬ (Smooth cfg ∧ Provided cfg s.world.store details) → X) :
    wp (unpackDevice cfg details tp fn)
      (fun _ => Fine X fun s' => Put cfg details fn s s' ∧ Entered details fn s s')
      (fun _ _ => X) s := by
  have hsmooth : ¬ Smooth cfg → X := fun hno => hX fun h => hno h.1
  have hnone : deviceFor details tp = none → X := lacking hX fun h => hbody ▸ h.body
  unfold unpackDevice
  dsimp only
  rw [wp_bind, wp_item]
  cases hperms : details.lookup (lit "perms") with
  | none => exact hnone (by simp [deviceFor, modeFor, hperms])
  | some perms =>
    dsimp only
    rw [wp_bind, wp_int]
    cases hmode : pyInt 8 perms with
    | none => exact hnone (by simp [deviceFor, modeFor, cValue, hperms, hmode])
    | some mode =>
      dsimp only
      rw [wp_bind, wp_item]
      cases hrdev : details.lookup (lit "rdev") with
      | none => exact hnone (by simp [deviceFor, hrdev])
      | some text =>
        dsimp only
        rw [wp_bind, wp_int]
        cases hnumber : pyInt 10 text with
        | none => exact hnone (by simp [deviceFor, cValue, hrdev, hnumber])
        | some rdev =>
          dsimp only
          rw [wp_bind, wp_cInt]
          by_cases hfm : Fits 32 mode
          swap
          · rw [if_neg hfm]
            exact hnone (by simp [deviceFor, modeFor, cValue, hperms, hmode, hfm])
          rw [if_pos hfm, wp_bind, wp_cInt]
          by_cases hfr : Fits 32 rdev
          swap
          · rw [if_neg hfr]
            exact hnone (by simp [deviceFor, cValue, hrdev, hnumber, hfr])
          rw [if_pos hfr, wp_bind, Hostfs.mknod]
          have hdevice : deviceFor details tp =
              if (UInt32.ofInt mode ||| tp) &&& S_IFMT = S_IFCHR ∨
                (UInt32.ofInt mode ||| tp) &&& S_IFMT = S_IFBLK then
                some (.dev ((UInt32.ofInt mode ||| tp) &&& S_IFMT) (UInt64.ofInt rdev))
              else none := by
            simp [deviceFor, modeFor, cValue, hperms, hmode, hfm, hrdev, hnumber, hfr]
          by_cases hbits : (UInt32.ofInt mode ||| tp) &&& S_IFMT = S_IFCHR ∨
              (UInt32.ofInt mode ||| tp) &&& S_IFMT = S_IFBLK
          · rw [if_pos hbits] at hdevice
            refine wp_mono (h.wp_create (zero_not_mem_one hplace.zeroTmp) hsmooth hplace.tmp
              fun _ _ => if_pos hbits) ?_ fun _ _ h => h
            rintro _ s₁ ⟨now, h₁⟩
            refine wp_bind_fine (h₁.wp_setAttributes hplace.zeroTmp hX hlink (hbody.trans hdevice) ?_) ?_
              fun _ => grows_os _ _
            · simp [Hostfs.newInode]
            rintro _ s₂ - ⟨ino, hright, h₂⟩
            exact h₂.wp_finish h.ok hplace hsmooth htype hright
          · -- there are bits of another type on the line
            rw [if_neg hbits] at hdevice
            rw [wp_os (zero_not_mem_one hplace.zeroTmp)]
            apply Hbackup.wp_change
            · intro t ht
              rw [if_neg hbits] at ht
              cases ht
            · exact fun _ _ => hnone hdevice

/-- There is no such file yet. -/
theorem wp_pathExists (hok : s.world.target.Ok) (h0 : 0 ∉ path) (hsmooth : ¬ Smooth cfg → X)
    (hclear : Clear s.world.target (components path)) :
    wp (pathExists cfg path)
      (fun found s' => found = false ∧
        s' = { s with world := { s.world with clock := s.world.clock + 1 } })
      (fun _ _ => X) s := by
  rw [pathExists, orFalse, wp_tryCatch, wp_os (zero_not_mem_one h0)]
  refine wp_mono (wp_exists_host path hok) ?_ ?_
  · rintro found w' ⟨rfl, hfound⟩
    exact ⟨hfound hclear, rfl⟩
  · rintro stop w' ⟨rfl, hstop⟩
    have hno : X := hsmooth fun hs => hstop hs hclear
    cases stop with
    | killed => exact hno
    | _ => exact ⟨rfl, rfl⟩

/-- The directory is created. -/
theorem Ready.wp_makeDir (h : Ready cfg s) (h0 : 0 ∉ path) (hsmooth : ¬ Smooth cfg → X)
    (hmode : modeFor details = none → X) (hclear : Clear s.world.target (components path)) :
    wp (makeDir cfg details path)
      (fun made s' => made = true ∧ ∃ ino, ino.body = .dir ∧
        Shaping cfg (components path) s ino s')
      (fun _ _ => X) s := by
  unfold makeDir
  rw [wp_bind]
  refine wp_mono (wp_pathExists h.ok h0 hsmooth hclear) ?_ fun _ _ h => h
  rintro _ _ ⟨rfl, rfl⟩
  rw [wp_ite, if_neg (by simp), wp_bind, wp_item]
  unfold modeFor cValue at hmode
  cases hperms : details.lookup (lit "perms") with
  | none => exact hmode (by rw [hperms]; rfl)
  | some t =>
    dsimp only
    rw [wp_bind, wp_int]
    cases hint : pyInt 8 t with
    | none => exact hmode (by rw [hperms, Option.bind_some, hint]; rfl)
    | some n =>
      dsimp only
      rw [wp_bind, wp_cInt]
      by_cases hfits : Fits 32 n
      swap
      · rw [if_neg hfits]
        exact hmode (by rw [hperms, Option.bind_some, hint, Option.bind_some, if_neg hfits]; rfl)
      rw [if_pos hfits, wp_bind]
      have hready : Ready cfg { s with world := { s.world with clock := s.world.clock + 1 } } :=
        ⟨h.ok, h.warnings, h.knows.uid, h.knows.gid⟩
      refine wp_mono (hready.wp_create (zero_not_mem_one h0) hsmooth hclear fun _ _ => rfl) ?_
        fun _ _ h => h
      rintro _ s' ⟨now, hmade⟩
      exact ⟨rfl, _, rfl, hmade.rebase⟩

/-- A directory. -/
theorem Ready.wp_unpackDir (h : Ready cfg s) (hplace : Place fn s.world.target)
    (htype : HasType details "dir")
    (hX : ¬ (Smooth cfg ∧ Provided cfg s.world.store details) → X) :
    wp (unpackDir cfg details fn)
      (fun _ => Fine X fun s' => Put cfg details fn s s' ∧ Entered details fn s s')
      (fun _ _ => X) s := by
  have hsmooth : ¬ Smooth cfg → X := fun hno => hX fun h => hno h.1
  have hlink : ¬ HasType details "link" := fun hlink => absurd (htype.symm.trans hlink) (by decide)
  have hmode : modeFor details = none → X := lacking hX fun h => h.mode hlink
  have huid : ownerFor cfg.users.getpwnam details "uid" = none → X := lacking hX fun h => h.uid
  have hgid : ownerFor cfg.users.getgrnam details "gid" = none → X := lacking hX fun h => h.gid
  have hbody : bodyFor cfg.repo s.world.store details = some .dir := by
    rw [bodyFor, htype]
    dsimp only
    rw [if_neg (by decide), if_pos rfl]
  unfold unpackDir
  rw [wp_bind]
  refine wp_mono (h.wp_makeDir hplace.zero hsmooth hmode hplace.clear) ?_ fun _ _ h => h
  rintro _ s₁ ⟨rfl, ino, hino, h₁⟩
  rw [wp_ite, if_pos rfl]
  refine wp_bind_fine (h₁.wp_setMode hplace.zero hsmooth hmode) ?_ fun _ => Frames.bind (grows_item _ _)
    fun _ => Frames.bind (grows_item _ _) fun _ => Frames.bind (grows_setOwner _) fun _ =>
    grows_setTimes _
  rintro _ s₂ - ⟨mode, hmode', h₂⟩
  refine wp_item_owner huid fun _ => wp_item_owner hgid fun _ => ?_
  refine wp_bind_fine (h₂.wp_setOwner hplace.zero hsmooth huid hgid) ?_ fun _ => grows_setTimes _
  rintro _ s₃ - ⟨uid, gid, huid', hgid', h₃⟩
  refine wp_mono (h₃.wp_setTimes hplace.zero hsmooth (lacking hX fun h => h.atime hlink)
    (lacking hX fun h => h.mtime hlink)) ?_ fun _ _ h => h
  rintro _ s₄ ⟨hzero, atime, mtime, -, -, h₄⟩
  have hright : Right cfg s.world.store details
      { Inode.owned { ino with mode := mode &&& 0o7777 } uid gid with atime, mtime } := by
    refine ⟨?_, huid', hgid', fun _ => ?_, fun _ hno => absurd hino hno⟩
    · rw [hbody]
      exact congrArg some hino.symm
    · unfold Inode.owned
      dsimp only
      rw [hmode', Option.map_some, if_pos hino, if_pos hino]
  -- the directory is new, so that nothing is in it
  have hempty := h.ok.children_eq_nil (isDir_eq_false hplace.clear.ne_nil hplace.clear.free)
  refine .inl ⟨hzero, ⟨h₄.making.still.store, ?_, h₄.knows, h₄.making.named, _, h₄.making.inode, hright⟩,
    fun n => ?_⟩
  · exact h₄.making.named.ok h.ok hplace.clear.ne_nil (by rw [h₄.making.inode]; rfl)
      hplace.clear.parent hempty
  · have hno : details.lookup (lit "type") ≠ none := by
      rw [htype]
      simp
    rw [if_neg fun h => hno h.1, h₄.inodes]

/-! ### One line -/

/-- There is a new link to the file `first`, and nothing else has changed. -/
structure Joined (cfg : Config) (first fn : Bytes) (s s' : Unpacking) : Prop where
  store : s'.world.store = s.world.store
  ok : s'.world.target.Ok
  knows : Knows cfg s'
  inodes : s'.inodes = s.inodes
  named : ∃ i, s.world.target.names.lookup (components first) = some i ∧
    s.world.target.Named s'.world.target (components fn) i

/-- A file that has more than one link, of which the first has been seen. -/
theorem Ready.wp_restoreLink (h : Ready cfg s) (hplace : Place fn s.world.target) {first : Bytes}
    (h0 : 0 ∉ first) {i : Nat} (hfirst : s.world.target.names.lookup (components first) = some i)
    (hfile : s.world.target.isDir (components first) = false) (hsmooth : ¬ Smooth cfg → X) :
    wp (do
        os [first, tmpname fn] (Hostfs.link cfg first (tmpname fn))
        os [tmpname fn, fn] (Hostfs.rename cfg (tmpname fn) fn))
      (fun _ => Fine X (Joined cfg first fn s)) (fun _ _ => X) s := by
  have hno : ¬ (s.world.target.names.lookup (components first) = none ∨
      s.world.target.isDir (components first) = true) := by
    rw [hfirst, hfile]
    simp
  have hlink := @Hbackup.wp_restoreLink cfg s.world first fn {} hplace.slash h.ok
  rw [wp_bind] at hlink ⊢
  rw [wp_os (zero_not_mem_two h0 hplace.zeroTmp)]
  refine wp_mono hlink ?_
    fun _ _ hstop => hsmooth fun hs => hno (hstop.2 hs hplace.tmp hplace.clear)
  intro _ w₁ hrename
  rw [wp_bind] at hrename
  rw [wp_os (zero_not_mem_two hplace.zeroTmp hplace.zero)]
  refine wp_mono hrename ?_
    fun _ _ hstop => hsmooth fun hs => hno (hstop.2 hs hplace.tmp hplace.clear)
  rintro _ w₂ ⟨-, hstill, hok, j, hj, hnamed⟩
  refine .inl ⟨h.warnings, hstill.store, hok, ⟨h.knows.uid, h.knows.gid⟩, rfl, j, hj, ?_⟩
  refine hnamed.resolve_right fun hold => ?_
  rw [hplace.clear.free] at hold
  cases hold.1

/-- What has been unpacked for the first line with its inode number, or that it is to be unpacked. -/
def seenFirst (details : Pairs) (inodes : Pairs) : Option Bytes :=
  (details.lookup (lit "inode")).bind fun inode => inodes.lookup inode

theorem bodyFor_of_type (repo : Bytes) (store : Store) {type : Bytes}
    (h : details.lookup (lit "type") = some type) : bodyFor repo store details =
      if type = lit "link" then
      (details.lookup (lit "target")).bind fun t => if 0 ∈ t then none else some (.link t)
      else if type = lit "dir" then some .dir
      else if type = lit "chr" then deviceFor details S_IFCHR
      else if type = lit "blk" then deviceFor details S_IFBLK
      else none := by
  rw [bodyFor, h]

/-- **A line is restored.** -/
theorem Ready.wp_restore (h : Ready cfg s) {name : Bytes}
    (hname : details.lookup (lit "name") = some name)
    (hplace : Place (join cfg.root [name]) s.world.target) (hnew : seenFirst details s.inodes = none)
    (hX : ¬ (Smooth cfg ∧ Provided cfg s.world.store details) → X) :
    wp (restore cfg details)
      (fun _ => Fine X fun s' => Put cfg details (join cfg.root [name]) s s' ∧
        Entered details (join cfg.root [name]) s s')
      (fun _ _ => X) s := by
  unfold restore
  rw [wp_bind, wp_item, hname]
  dsimp only
  rw [wp_bind, wp_get]
  unfold seenFirst at hnew
  rw [hnew]
  dsimp only
  -- one case for each type that the script knows
  cases htype : details.lookup (lit "type") with
  | none => exact h.wp_unpackRegular hplace htype hX
  | some type =>
    have hsome : details.lookup (lit "type") ≠ none := by
      rw [htype]
      simp
    have hnot : type ≠ lit "link" → ¬ HasType details "link" :=
      fun hne hlink => hne (Option.some.inj (htype.symm.trans hlink))
    have hbody := bodyFor_of_type cfg.repo s.world.store htype
    dsimp only
    by_cases hlink : type = lit "link"
    · rw [if_pos hlink]
      exact h.wp_unpackLink hplace (htype.trans (congrArg some hlink)) hX
    rw [if_neg hlink] at hbody ⊢
    by_cases hdir : type = lit "dir"
    · rw [if_pos hdir]
      exact h.wp_unpackDir hplace (htype.trans (congrArg some hdir)) hX
    rw [if_neg hdir] at hbody ⊢
    by_cases hchr : type = lit "chr"
    · rw [if_pos hchr] at hbody ⊢
      exact h.wp_unpackDevice hplace hsome (hnot hlink) hbody hX
    rw [if_neg hchr] at hbody ⊢
    by_cases hblk : type = lit "blk"
    · rw [if_pos hblk] at hbody ⊢
      exact h.wp_unpackDevice hplace hsome (hnot hlink) hbody hX
    · rw [if_neg hblk] at hbody ⊢
      rw [wp_warn]
      exact .inr ⟨Nat.succ_pos _, lacking hX (fun h => h.body) hbody⟩

/-- There are no fewer warnings afterwards. -/
theorem grows_restore : Frames Grows (restore cfg details) := by
  -- part by part, each made of calls that add warnings or none
  have hfill : ∀ path, Frames Grows (fillRegular cfg details path) := by
    intro path
    unfold fillRegular
    split
    · exact Frames.bind (grows_onWorld _) fun _ => Frames.bind (grows_os _ _) fun _ =>
        Frames.bind (Frames.forM (fun _ => grows_onWorld _) _) fun _ =>
        Frames.ite (Frames.throw _) (Frames.pure _)
    split
    · exact Frames.bind (grows_os _ _) fun _ => Frames.ite (grows_onWorld _) (Frames.pure _)
    · exact grows_warn
  have hregular : ∀ fn, Frames Grows (unpackRegular cfg details fn) := fun fn =>
    Frames.bind (hfill _) fun _ => Frames.bind (grows_setAttributes _) fun _ =>
      Frames.bind (grows_enterInode _) fun _ => grows_os _ _
  have hlink : ∀ fn, Frames Grows (unpackLink cfg details fn) := fun fn =>
    Frames.bind (grows_item _ _) fun _ => Frames.bind (grows_os _ _) fun _ =>
      Frames.bind (grows_setOwner _) fun _ => grows_os _ _
  have hdevice : ∀ tp fn, Frames Grows (unpackDevice cfg details tp fn) := fun tp fn =>
    Frames.bind (grows_item _ _) fun _ => Frames.bind (grows_int _ _) fun _ =>
      Frames.bind (grows_item _ _) fun _ => Frames.bind (grows_int _ _) fun _ =>
      Frames.bind (grows_cInt _ _) fun _ => Frames.bind (grows_cInt _ _) fun _ =>
      Frames.bind (grows_os _ _) fun _ => Frames.bind (grows_setAttributes _) fun _ => grows_os _ _
  have hmake : ∀ fn, Frames Grows (makeDir cfg details fn) := by
    intro fn
    refine Frames.bind (grows_orFalse (grows_os _ _)) fun found =>
      Frames.ite (grows_orFalse (grows_os _ _)) ?_
    exact Frames.bind (grows_item _ _) fun _ => Frames.bind (grows_int _ _) fun _ =>
      Frames.bind (grows_cInt _ _) fun _ => Frames.bind (grows_os _ _) fun _ => Frames.pure _
  have hdir : ∀ fn, Frames Grows (unpackDir cfg details fn) := fun fn =>
    Frames.bind (hmake fn) fun _ => Frames.ite
      (Frames.bind (grows_setMode _) fun _ => Frames.bind (grows_item _ _) fun _ =>
        Frames.bind (grows_item _ _) fun _ => Frames.bind (grows_setOwner _) fun _ => grows_setTimes _)
      grows_warn
  refine Frames.bind (grows_item _ _) fun name => Frames.get_bind fun s => ?_
  split
  · exact Frames.bind (grows_os _ _) fun _ => grows_os _ _
  split
  · exact hregular _
  · exact Frames.ite (hlink _) (Frames.ite (hdir _) (Frames.ite (hdevice _ _)
      (Frames.ite (hdevice _ _) grows_warn)))

end Hbackup.Script
