import Hbackup.Equiv.Buffer
import Hbackup.Equiv.Target
import Hbackup.Equiv.Verify
import Hbackup.Restore
import Hbackup.Utils.Equiv.Names

/-!
# What calls on the target do

Something is made under a temporary name (`Making`), given its contents, its owner, its mode and its
times, and renamed.  A rule for a call says what it leaves when it returns, that nothing but the
temporary name is touched when it stops the program (`Broken`), and that when every call succeeds that
can (`Smooth`) it does not stop it without a reason.
-/

namespace Hbackup

open ProgramLogic File Target

variable {cfg : Config} {w w' w'' : World} {tmp : List Bytes} {ino : Inode}

/-- Every call succeeds that can, and the process is not killed. -/
structure Smooth (cfg : Config) : Prop where
  undisturbed : Undisturbed cfg
  room : ∀ n, (cfg.env n).full = none

/-! ### Calls -/

theorem wp_apply (doing : String) (path : Bytes) (f : Target → Except Errno Target)
    (Q : Unit → World → Prop) (E : Stop → World → Prop) (w : World) :
    wp (Hostfs.apply doing path f) Q E w ↔
      match f w.target with
      | .error e => E (.exn (.fileError doing path e)) w
      | .ok target => Q () { w with target } := by
  rw [Hostfs.apply, wp_bind, wp_get]
  cases f w.target <;> rfl

/-- A call does what it says, or it stops the program. -/
theorem wp_change {doing : String} {path : Bytes} {f : Int64 → Target → Except Errno Target}
    {Q : Unit → World → Prop} {E : Stop → World → Prop}
    (hok : ∀ t, f (cfg.env w.clock).now w.target = .ok t →
      Q () { w with clock := w.clock + 1, target := t })
    (hstop : ∀ stop, (Smooth cfg → ∃ e, f (cfg.env w.clock).now w.target = .error e) →
      E stop { w with clock := w.clock + 1 }) :
    wp (Hostfs.change cfg doing path f) Q E w := by
  rw [Hostfs.change, wp_bind, wp_call]
  split
  · rename_i hkilled
    refine hstop _ fun hsmooth => ?_
    rw [(hsmooth.undisturbed w.clock).1] at hkilled
    cases hkilled
  split
  · rename_i e hfault
    refine hstop _ fun hsmooth => ?_
    rw [(hsmooth.undisturbed w.clock).2.1] at hfault
    cases hfault
  rw [wp_apply]
  cases hf : f (cfg.env w.clock).now w.target with
  | error e => exact hstop _ fun _ => ⟨e, hf⟩
  | ok t => exact hok t hf

theorem wp_asVirtual {α : Type} (m : M α) (Q : α → World → Prop) (E : FileStop → World → Prop) (w : World) :
    wp (Hostfs.asVirtual m) Q E w ↔ wp m Q (fun stop => E (Hostfs.inFile stop)) w := by
  unfold wp Hostfs.asVirtual
  cases m w <;> rfl

/-! ### Owners -/

/-- What restoring does outside the target. -/
structure Still (cfg : Config) (w w' : World) : Prop where
  store : w'.store = w.store
  errors : w'.errors = w.errors
  knows : KnowsIds cfg w.names → KnowsIds cfg w'.names

theorem Still.refl (w : World) : Still cfg w w := ⟨rfl, rfl, id⟩

theorem Still.trans (h : Still cfg w w') (h' : Still cfg w' w'') : Still cfg w w'' :=
  ⟨h'.store.trans h.store, h'.errors.trans h.errors, fun hk => h'.knows (h.knows hk)⟩

/-- Looking a name up changes nothing but the tables. -/
theorem LookedUp.still (h : LookedUp w w') (hknows : KnowsIds cfg w.names → KnowsIds cfg w'.names) :
    Still cfg w w' ∧ w'.target = w.target := by
  obtain ⟨n, k, rfl⟩ := h
  exact ⟨⟨rfl, rfl, hknows⟩, rfl⟩

theorem wp_string2uid (s : Bytes) (w : World) :
    wp (string2uid cfg s)
      (fun id w' => Still cfg w w' ∧ w'.target = w.target ∧
        (KnowsIds cfg w.names → idOf cfg.users.getpwnam s = some id))
      (fun _ w' => w' = w ∧ idOf cfg.users.getpwnam s = none) w := by
  apply wp_mono (wp_string2id (K := KnowsIds cfg) _ s w (fun hk _ _ h => hk.uid h) fun _ hid hk => hk.uid_cons hid)
  · rintro id w' ⟨hlooked, hk⟩
    obtain ⟨hstill, htarget⟩ := hlooked.still fun h => (hk h).1
    exact ⟨hstill, htarget, fun h => (hk h).2⟩
  · exact fun _ w' h => h.2

theorem wp_string2gid (s : Bytes) (w : World) :
    wp (string2gid cfg s)
      (fun id w' => Still cfg w w' ∧ w'.target = w.target ∧
        (KnowsIds cfg w.names → idOf cfg.users.getgrnam s = some id))
      (fun _ w' => w' = w ∧ idOf cfg.users.getgrnam s = none) w := by
  apply wp_mono (wp_string2id (K := KnowsIds cfg) _ s w (fun hk _ _ h => hk.gid h) fun _ hid hk => hk.gid_cons hid)
  · rintro id w' ⟨hlooked, hk⟩
    obtain ⟨hstill, htarget⟩ := hlooked.still fun h => (hk h).1
    exact ⟨hstill, htarget, fun h => (hk h).2⟩
  · exact fun _ w' h => h.2

/-! ### Under a temporary name -/

/-- Nothing but the name `tmp`, and what is new, has been touched. -/
structure Broken (tmp : List Bytes) (w w' : World) : Prop where
  store : w'.store = w.store
  names : ∀ q, q ≠ tmp → w'.target.names.lookup q = w.target.names.lookup q
  old : ∀ j < w.target.inodes.length, w.target.SameInode w'.target j

theorem Broken.of_target (hs : w'.store = w.store) (ht : w'.target = w.target) : Broken tmp w w' :=
  ⟨hs, fun _ _ => by rw [ht], fun j _ => ht ▸ .refl _ j⟩

/-- `ino` has been made under the name `tmp`, and nothing else. -/
structure Making (cfg : Config) (tmp : List Bytes) (w : World) (ino : Inode) (w' : World) : Prop where
  still : Still cfg w w'
  named : w.target.Named w'.target tmp w.target.inodes.length
  inode : w'.target.inodes[w.target.inodes.length]? = some ino

theorem Making.broken (h : Making cfg tmp w ino w') : Broken tmp w w' :=
  ⟨h.still.store, fun _ hq => h.named.lookup_ne hq, h.named.old⟩

theorem Making.of_target (h : Making cfg tmp w ino w') (hs : Still cfg w' w'')
    (ht : w''.target = w'.target) : Making cfg tmp w ino w'' :=
  ⟨h.still.trans hs, ht ▸ h.named, ht ▸ h.inode⟩

/-- A change to it. -/
theorem Making.update (h : Making cfg tmp w ino w') (f : Inode → Inode) {n : Nat} :
    Making cfg tmp w (f ino) { w' with
      clock := n
      target := w'.target.update w.target.inodes.length f } :=
  ⟨⟨h.still.store, h.still.errors, h.still.knows⟩,
    h.named.update (fun _ hj => Nat.ne_of_lt hj) f, getElem?_update_self f h.inode⟩

/-- A call that changes what is under the temporary name. -/
theorem Making.wp_change (h : Making cfg tmp w ino w') {doing : String} {path : Bytes}
    {f : Int64 → Target → Except Errno Target} {g : Inode → Inode}
    (hf : ∀ now t i, t.names.lookup tmp = some i → f now t = .ok (t.update i g)) :
    wp (Hostfs.change cfg doing path f) (fun _ w'' => Making cfg tmp w (g ino) w'')
      (fun _ w'' => Broken tmp w w'' ∧ ¬ Smooth cfg) w' := by
  have hi := h.named.lookup_self
  apply Hbackup.wp_change
  · intro t ht
    rw [hf _ _ _ hi] at ht
    obtain rfl := Except.ok.inj ht
    exact h.update g
  · intro stop hstop
    refine ⟨⟨h.still.store, h.broken.names, h.broken.old⟩, fun hsmooth => ?_⟩
    obtain ⟨e, he⟩ := hstop hsmooth
    rw [hf _ _ _ hi] at he
    cases he

/-- The way is clear for something new. -/
structure Clear (t : Target) (path : List Bytes) : Prop where
  ne_nil : path ≠ []
  parent : t.hasParent path = true
  free : t.names.lookup path = none

/-- Something new is made. -/
theorem wp_create {doing : String} {path : Bytes} {new : Int64 → Inode}
    {f : Int64 → Target → Except Errno Target} (hw : w.target.Ok)
    (hf : ∀ now t, f now t = t.create now tmp (new now)) :
    wp (Hostfs.change cfg doing path f)
      (fun _ w' => Clear w.target tmp ∧ ∃ now, Making cfg tmp w (new now) w')
      (fun _ w' => Broken tmp w w' ∧ w'.errors = w.errors ∧
        (KnowsIds cfg w.names → KnowsIds cfg w'.names) ∧ w'.target = w.target ∧
        (Smooth cfg → ¬ Clear w.target tmp)) w := by
  apply Hbackup.wp_change
  · intro t ht
    rw [hf] at ht
    obtain ⟨hne, hparent, hnone, hnamed, hnew⟩ := create_spec ht hw
    exact ⟨⟨hne, hparent, hnone⟩, _, ⟨rfl, rfl, id⟩, hnamed, hnew⟩
  · intro stop hstop
    refine ⟨.of_target rfl rfl, rfl, id, rfl, fun hsmooth hclear => ?_⟩
    obtain ⟨e, he⟩ := hstop hsmooth
    obtain ⟨t, ht⟩ := create_ok (cfg.env w.clock).now (new (cfg.env w.clock).now)
      hclear.ne_nil hclear.parent hclear.free
    rw [hf, ht] at he
    cases he

/-! ### Leftovers -/

/-- What becomes of a name that is to be used for something else: it is free, or it is that of a
directory that cannot be removed. -/
structure Freed (tmp : List Bytes) (t t' : Target) : Prop where
  names : ∀ q, q ≠ tmp → t'.names.lookup q = t.names.lookup q
  gone : t'.names.lookup tmp = none ∨ t' = t
  inodes : ∀ j, t.SameInode t' j
  length : t'.inodes.length = t.inodes.length
  ok : t'.Ok
  free : t'.names.lookup tmp = none ∨ t'.isDir tmp = true
  keeps : t.names.lookup tmp = none → t' = t

/-- The temporary file is out of the way. -/
theorem wp_discardTmp (hstuck : ∀ n, (cfg.env n).stuck = none) (path : Bytes) (hw : w.target.Ok) :
    wp (discardTmp cfg path)
      (fun _ w' => Still cfg w w' ∧ Freed (components path) w.target w'.target)
      (fun _ w' => Broken (components path) w w' ∧ ¬ Smooth cfg) w := by
  rw [discardTmp, wp_tryCatch, Hostfs.remove, wp_bind, wp_tick]
  split
  · rename_i hkilled
    refine ⟨.of_target rfl rfl, fun hsmooth => ?_⟩
    rw [(hsmooth.undisturbed w.clock).1] at hkilled
    cases hkilled
  rw [hstuck]
  dsimp only
  rw [wp_apply]
  dsimp only
  cases hremove : w.target.remove (cfg.env w.clock).now (components path) with
  | error e =>
    -- a file that was there has been removed
    have hfree := remove_error hremove
    exact ⟨⟨rfl, rfl, id⟩, fun _ _ => rfl, .inr rfl, .refl _, rfl, hw, hfree, fun _ => rfl⟩
  | ok t =>
    obtain ⟨hnames, hsame, hlen, hok⟩ := remove_spec hremove hw
    have hgone : t.names.lookup (components path) = none := (hnames _).trans (if_pos rfl)
    refine ⟨⟨rfl, rfl, id⟩, fun q hq => ?_, .inl hgone, hsame, hlen, hok, .inl hgone, fun hnone => ?_⟩
    · exact (hnames q).trans (if_neg hq)
    · unfold Target.remove at hremove
      rw [hnone, Option.isNone_none, if_pos rfl] at hremove
      cases hremove

end Hbackup
