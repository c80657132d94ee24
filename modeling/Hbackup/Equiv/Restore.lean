import Hbackup.Equiv.Destructor
import Hbackup.Equiv.File
import Hbackup.Equiv.RestoreEntry

/-!
# What shows while an index is restored

The invariant of the loop of `do_restore` (`RunState`): under any name that is not a temporary one there
is what was there before the run or a complete object (`Intact`), and the path that is remembered for an
inode number names the file restored for it, or nothing.  One step per entry
(`RunState.wp_restoreEntry`), then the loop, then the times of directories.  The invariant needs the
entries to have different places; an index that has a name twice can give a file the contents of another
(`not_replaces_atomically`).
-/

namespace Hbackup

open ProgramLogic File Target

variable {cfg : Config} {w₀ w w' : World}

/-! ### Entries -/

/-- An entry of an index with its full name. -/
structure FullEntry where
  full : Bytes
  details : Details

namespace FullEntry

/-- The path of the full name. -/
def place (e : FullEntry) : List Bytes := components e.full

/-- The path of the temporary name. -/
def tmp (e : FullEntry) : List Bytes := components (tmpname e.full)

/-- A regular file with the inode number `n`. -/
def HasInode (e : FullEntry) (n : UInt64) : Prop :=
  e.details (lit "type") = none ∧ inodenum e.details = some n

end FullEntry

/-- The entries with their full names; a relative name without a directory is passed over. -/
def fullNames (cfg : Config) : Bytes → List Details → List FullEntry
  | _, [] => []
  | dir, d :: ds =>
    match resolveName dir (cfg.convert (d.get (lit "name"))) with
    | none => fullNames cfg dir ds
    | some (name, dir) => ⟨fullname cfg.root name, d⟩ :: fullNames cfg dir ds

/-- The entries that a restore started in `w` reads. -/
def toRestore (cfg : Config) (w : World) : List FullEntry :=
  match Backupfs.fileAt (cfg.env w.clock).reads w.store cfg.indexfile with
  | .ok f => fullNames cfg [] (entriesOf f).1
  | .error _ => []

/-! ### What shows under a name -/

/-- Under `q` there is the complete object of one of the entries `done`, or of the file that an entry
before it had the same inode number as. -/
inductive Shown (cfg : Config) (s : Store) (tmps : List (List Bytes)) (done : List FullEntry)
    (t : Target) (q : List Bytes) : Prop
  | new {e : FullEntry} {i : Nat} {ino : Inode} (he : e ∈ done) (hplace : e.place = q)
      (hname : t.names.lookup q = some i) (hino : t.inodes[i]? = some ino)
      (hcomplete : Complete cfg s e.details ino) : Shown cfg s tmps done t q
  | linked {pre post : List FullEntry} {e e' : FullEntry} {n : UInt64} {i : Nat} {ino : Inode}
      (hdone : done = pre ++ e :: post) (he' : e' ∈ pre) (hplace : e.place = q)
      (hsame : inodenum e.details = some n) (hsource : e'.HasInode n)
      (hname : t.names.lookup q = some i) (hino : t.inodes[i]? = some ino)
      (hcomplete : Complete cfg s e'.details ino)
      (hlink : t.names.lookup e'.place = some i ∨ e'.place ∈ tmps) : Shown cfg s tmps done t q

/-- Under `q` there is what was there in `t₀`, or something complete. -/
def Intact (cfg : Config) (s : Store) (tmps : List (List Bytes)) (done : List FullEntry)
    (t₀ t : Target) (q : List Bytes) : Prop :=
  (t.names.lookup q = t₀.names.lookup q ∧ ∀ i, t₀.names.lookup q = some i → t₀.SameInode t i) ∨
    Shown cfg s tmps done t q

/-- **Nothing incomplete shows** under a name that is not the temporary one of an entry. -/
def Presented (cfg : Config) (w w' : World) : Prop :=
  ∀ q, q ∉ (toRestore cfg w).map FullEntry.tmp →
    Intact cfg w.store ((toRestore cfg w).map FullEntry.tmp) (toRestore cfg w) w.target w'.target q

variable {s : Store} {tmps : List (List Bytes)} {done es : List FullEntry} {t₀ t t' : Target}
  {q p : List Bytes}

theorem Shown.mono (h : Shown cfg s tmps done t q) (es : List FullEntry) :
    Shown cfg s tmps (done ++ es) t q := by
  cases h with
  | new he hplace hname hino hcomplete =>
    exact .new (List.mem_append_left _ he) hplace hname hino hcomplete
  | linked hdone he' hplace hsame hsource hname hino hcomplete hlink =>
    subst hdone
    exact .linked (by rw [List.append_assoc]; rfl) he' hplace hsame hsource hname hino hcomplete
      hlink

theorem Intact.mono (h : Intact cfg s tmps done t₀ t q) (es : List FullEntry) :
    Intact cfg s tmps (done ++ es) t₀ t q :=
  h.imp id fun hshown => hshown.mono es

/-- All names but `p` are as they were, and all inodes are, but for the times of directories. -/
structure Target.Besides (p : List Bytes) (t t' : Target) : Prop where
  names : ∀ q, q ≠ p → t'.names.lookup q = t.names.lookup q
  inodes : ∀ j < t.inodes.length, t.SameInode t' j

theorem Target.Besides.length_le (h : Besides p t t') : t.inodes.length ≤ t'.inodes.length := by
  by_contra hlt
  obtain ⟨ino, hino, -⟩ := h.inodes t'.inodes.length (by omega) _
    (List.getElem?_eq_getElem (by omega))
  have := (List.getElem?_eq_some_iff.mp hino).1
  omega

theorem Target.Named.besides {i : Nat} (h : t.Named t' p i) : Besides p t t' :=
  ⟨fun _ hq => h.lookup_ne hq, h.old⟩

/-- What shows under a name that is left alone still does. -/
theorem Intact.same (h : Intact cfg s tmps done t₀ t q) (hok : t.Ok) (hok₀ : t₀.Ok)
    (hlen : t₀.inodes.length ≤ t.inodes.length) (hname : t'.names.lookup q = t.names.lookup q)
    (hinodes : ∀ j < t.inodes.length, t.SameInode t' j)
    (hdone : ∀ e ∈ done, e.place ∈ tmps ∨ t'.names.lookup e.place = t.names.lookup e.place) :
    Intact cfg s tmps done t₀ t' q := by
  rcases h with ⟨hnames, hsame⟩ | hshown
  · refine .inl ⟨hname.trans hnames, fun i hi => (hsame i hi).trans (hinodes i ?_)⟩
    exact (hok₀.inode hi).trans_le hlen
  right
  cases hshown with
  | new he hplace hq hino hcomplete =>
    obtain ⟨ino', hino', halike⟩ := hinodes _ (hok.inode hq) _ hino
    exact .new he hplace (hname.trans hq) hino' (hcomplete.alike halike)
  | @linked pre post e e' n i ino hdone' he' hplace hsame hsource hq hino hcomplete hlink =>
    obtain ⟨ino', hino', halike⟩ := hinodes _ (hok.inode hq) _ hino
    refine .linked hdone' he' hplace hsame hsource (hname.trans hq) hino' (hcomplete.alike halike) ?_
    rcases hlink with hlink | htmp
    · have hm : e' ∈ done := by
        rw [hdone']
        exact List.mem_append_left _ he'
      exact (hdone e' hm).symm.imp (fun hkept => hkept.trans hlink) id
    · exact .inr htmp

theorem Intact.besides (h : Intact cfg s tmps done t₀ t q) (hb : Besides p t t') (hok : t.Ok)
    (hlen : t₀.inodes.length ≤ t.inodes.length) (hok₀ : t₀.Ok) (hq : q ≠ p)
    (hdone : p ∈ tmps ∨ ∀ e ∈ done, e.place ≠ p) : Intact cfg s tmps done t₀ t' q := by
  refine h.same hok hok₀ hlen (hb.names q hq) hb.inodes fun e he => ?_
  by_cases hp : e.place = p
  · exact .inl (hp ▸ hdone.resolve_right fun hdone => hdone e he hp)
  · exact .inr (hb.names _ hp)

/-! ### The state between two entries -/

/-- After the entries `done` of `es`. -/
structure RunState (cfg : Config) (w₀ : World) (es done : List FullEntry) (r : Restoring) (w : World) :
    Prop where
  store : w.store = w₀.store
  knows : KnowsIds cfg w.names
  ok : w.target.Ok
  length : w₀.target.inodes.length ≤ w.target.inodes.length
  intact : ∀ q, q ∉ es.map FullEntry.tmp →
    Intact cfg w₀.store (es.map FullEntry.tmp) done w₀.target w.target q
  /-- New files have the names of entries. -/
  fresh : ∀ q i, w.target.names.lookup q = some i → w₀.target.inodes.length ≤ i →
    ∃ e ∈ done, e.place = q
  inodes : ∀ n path, r.inodes.lookup n = some path → ∃ e ∈ done, e.full = path ∧ e.HasInode n ∧
    ∀ i, w.target.names.lookup e.place = some i → w₀.target.inodes.length ≤ i ∧
      ∃ ino, w.target.inodes[i]? = some ino ∧ Complete cfg w₀.store e.details ino
  dirs : ∀ stamp ∈ r.dirtimes, ∃ e ∈ done, e.full = stamp.dir ∧
    ∀ i, w.target.names.lookup e.place = some i →
      ∃ ino, w.target.inodes[i]? = some ino ∧ ino.body = .dir

variable {r r' : Restoring}

theorem RunState.start (h : w₀.target.Ok) (hk : KnowsIds cfg w₀.names) {n : Nat} :
    RunState cfg w₀ es [] {} { w₀ with clock := n } where
  store := rfl
  knows := hk
  ok := h
  length := Nat.le_refl _
  intact _ _ := .inl ⟨rfl, fun i _ => .refl _ i⟩
  fresh q i hi hle := by
    have := h.inode hi
    omega
  inodes _ _ hlookup := by cases hlookup
  dirs _ hm := by cases hm

theorem RunState.withDir (h : RunState cfg w₀ es done r w) (dir : Bytes) :
    RunState cfg w₀ es done { r with dir } w :=
  ⟨h.store, h.knows, h.ok, h.length, h.intact, h.fresh, h.inodes, h.dirs⟩

/-- A temporary name is taken away. -/
theorem RunState.freed (h : RunState cfg w₀ es done r w) (hok₀ : w₀.target.Ok) (hstill : Still cfg w w')
    (hfreed : Freed p w.target w'.target) (hp : p ∈ es.map FullEntry.tmp) :
    RunState cfg w₀ es done r w' := by
  have hb : Besides p w.target w'.target := ⟨hfreed.names, fun j _ => hfreed.inodes j⟩
  -- what has a name had it before
  have hlookup : ∀ q i, w'.target.names.lookup q = some i → w.target.names.lookup q = some i := by
    intro q i hi
    by_cases hq : q = p
    · rcases hfreed.gone with hnone | hsame
      · rw [hq, hnone] at hi
        cases hi
      · rwa [hsame] at hi
    · rwa [hfreed.names q hq] at hi
  constructor
  · rw [hstill.store, h.store]
  · exact hstill.knows h.knows
  · exact hfreed.ok
  · rw [hfreed.length]
    exact h.length
  · intro q hq
    exact (h.intact q hq).besides hb h.ok h.length hok₀ (fun e => hq (e ▸ hp)) (.inl hp)
  · exact fun q i hi => h.fresh q i (hlookup q i hi)
  · intro n path hn
    obtain ⟨e, he, hfull, hsource, hcomplete⟩ := h.inodes n path hn
    refine ⟨e, he, hfull, hsource, fun i hi => ?_⟩
    obtain ⟨hle, ino, hino, hc⟩ := hcomplete i (hlookup _ _ hi)
    obtain ⟨ino', hino', halike⟩ := hfreed.inodes i ino hino
    exact ⟨hle, ino', hino', hc.alike halike⟩
  · intro stamp hm
    obtain ⟨e, he, hfull, hdir⟩ := h.dirs stamp hm
    refine ⟨e, he, hfull, fun i hi => ?_⟩
    obtain ⟨ino, hino, hbody⟩ := hdir i (hlookup _ _ hi)
    obtain ⟨ino', hino', halike⟩ := hfreed.inodes i ino hino
    exact ⟨ino', hino', halike.body.trans hbody⟩

/-- An entry that leaves the target as it is. -/
theorem RunState.skip (h : RunState cfg w₀ es done r w) (e : FullEntry) (hstore : w'.store = w.store)
    (htarget : w'.target = w.target) (hknows : KnowsIds cfg w.names → KnowsIds cfg w'.names) :
    RunState cfg w₀ es (done ++ [e]) r w' where
  store := hstore.trans h.store
  knows := hknows h.knows
  ok := htarget ▸ h.ok
  length := htarget ▸ h.length
  intact q hq := htarget ▸ (h.intact q hq).mono [e]
  fresh q i hi hle := by
    rw [htarget] at hi
    obtain ⟨e', he', hplace⟩ := h.fresh q i hi hle
    exact ⟨e', List.mem_append_left _ he', hplace⟩
  inodes n path hn := by
    obtain ⟨e', he', hfacts⟩ := h.inodes n path hn
    rw [htarget]
    exact ⟨e', List.mem_append_left _ he', hfacts⟩
  dirs stamp hm := by
    obtain ⟨e', he', hfacts⟩ := h.dirs stamp hm
    rw [htarget]
    exact ⟨e', List.mem_append_left _ he', hfacts⟩

/-- An entry whose object has been put in its place. -/
theorem RunState.placed {e : FullEntry} {i : Nat} (h : RunState cfg w₀ es done r w)
    (hok₀ : w₀.target.Ok) (hnew : ∀ e' ∈ done, e'.place ≠ e.place) (hstill : Still cfg w w')
    (hok : w'.target.Ok) (hnamed : w.target.Named w'.target e.place i)
    (hshown : Shown cfg w₀.store (es.map FullEntry.tmp) (done ++ [e]) w'.target e.place)
    (hinodes : ∀ n path, r'.inodes.lookup n = some path → r.inodes.lookup n = some path ∨
      path = e.full ∧ e.HasInode n ∧ w₀.target.inodes.length ≤ i ∧
        ∃ ino, w'.target.inodes[i]? = some ino ∧ Complete cfg w₀.store e.details ino)
    (hdirs : ∀ stamp ∈ r'.dirtimes, stamp ∈ r.dirtimes ∨ stamp.dir = e.full ∧
      ∃ ino, w'.target.inodes[i]? = some ino ∧ ino.body = .dir) :
    RunState cfg w₀ es (done ++ [e]) r' w' := by
  have hb := hnamed.besides
  have hself : e ∈ done ++ [e] := by simp
  constructor
  · rw [hstill.store, h.store]
  · exact hstill.knows h.knows
  · exact hok
  · exact h.length.trans hb.length_le
  -- what is at `q` is the new object, or what was there: no other name has changed
  · intro q hq
    by_cases hqe : q = e.place
    · rw [hqe]
      exact .inr hshown
    · exact ((h.intact q hq).besides hb h.ok h.length hok₀ hqe (.inr hnew)).mono [e]
  · intro q j hj hle
    by_cases hqe : q = e.place
    · exact ⟨e, hself, hqe.symm⟩
    · rw [hnamed.lookup_ne hqe] at hj
      obtain ⟨e', he', hplace⟩ := h.fresh q j hj hle
      exact ⟨e', List.mem_append_left _ he', hplace⟩
  -- the entry may be the source of later links; that of an earlier one has not moved
  · intro n path hn
    rcases hinodes n path hn with hn | ⟨rfl, hsource, hle, hcomplete⟩
    · obtain ⟨e', he', hfull, hsource, hcomplete⟩ := h.inodes n path hn
      refine ⟨e', List.mem_append_left _ he', hfull, hsource, fun j hj => ?_⟩
      rw [hnamed.lookup_ne (hnew e' he')] at hj
      obtain ⟨hle, ino, hino, hc⟩ := hcomplete j hj
      obtain ⟨ino', hino', halike⟩ := hnamed.old j (h.ok.inode hj) ino hino
      exact ⟨hle, ino', hino', hc.alike halike⟩
    · refine ⟨e, hself, rfl, hsource, fun j hj => ?_⟩
      rw [hnamed.lookup_self] at hj
      obtain rfl := Option.some.inj hj
      exact ⟨hle, hcomplete⟩
  · intro stamp hm
    rcases hdirs stamp hm with hm | ⟨hfull, hdir⟩
    · obtain ⟨e', he', hfull, hdir⟩ := h.dirs stamp hm
      refine ⟨e', List.mem_append_left _ he', hfull, fun j hj => ?_⟩
      rw [hnamed.lookup_ne (hnew e' he')] at hj
      obtain ⟨ino, hino, hbody⟩ := hdir j hj
      obtain ⟨ino', hino', halike⟩ := hnamed.old j (h.ok.inode hj) ino hino
      exact ⟨ino', hino', halike.body.trans hbody⟩
    · refine ⟨e, hself, hfull.symm, fun j hj => ?_⟩
      rw [hnamed.lookup_self] at hj
      obtain rfl := Option.some.inj hj
      exact hdir

/-- What shows when a call has stopped the program. -/
theorem RunState.broken {rest : List FullEntry} (h : RunState cfg w₀ es done r w) (hok₀ : w₀.target.Ok)
    (hes : es = done ++ rest) (hbroken : Broken p w w') (hp : p ∈ es.map FullEntry.tmp)
    (hq : q ∉ es.map FullEntry.tmp) :
    Intact cfg w₀.store (es.map FullEntry.tmp) es w₀.target w'.target q := by
  have hb : Besides p w.target w'.target := ⟨hbroken.names, hbroken.old⟩
  have hqp : q ≠ p := fun e => hq (e ▸ hp)
  have hintact := ((h.intact q hq).besides hb h.ok h.length hok₀ hqp (.inl hp)).mono rest
  rwa [← hes] at hintact

/-! ### One entry -/

theorem slash_mem_fullname (root name : Bytes) : 47 ∈ fullname root name := by
  unfold fullname
  rw [lit_slash]
  simp

theorem place_ne {e : FullEntry} {rest : List FullEntry} (hes : es = done ++ e :: rest)
    (hnodup : (es.map FullEntry.place).Nodup) : ∀ e' ∈ done, e'.place ≠ e.place := by
  rw [hes, List.map_append, List.map_cons] at hnodup
  intro e' he' heq
  exact (List.nodup_append.mp hnodup).2.2 _ (List.mem_map_of_mem he') _ List.mem_cons_self heq

/-- **One entry.**  Wherever it stops, nothing incomplete shows. -/
theorem RunState.wp_restoreEntry (h : RunState cfg w₀ es done r w) (hok₀ : w₀.target.Ok)
    (hstuck : ∀ n, (cfg.env n).stuck = none) (hnodup : (es.map FullEntry.place).Nodup) {d : Details}
    {name dir : Bytes} {rest : List FullEntry}
    (hresolve : resolveName r.dir (cfg.convert (d.get (lit "name"))) = some (name, dir))
    (hes : es = done ++ ⟨fullname cfg.root name, d⟩ :: rest) :
    wp (restoreEntry cfg r d)
      (fun r' w' => RunState cfg w₀ es (done ++ [⟨fullname cfg.root name, d⟩]) r' w' ∧ r'.dir = dir)
      (fun _ w' => ∀ q, q ∉ es.map FullEntry.tmp →
        Intact cfg w₀.store (es.map FullEntry.tmp) es w₀.target w'.target q) w := by
  have hslash := slash_mem_fullname cfg.root name
  set e : FullEntry := ⟨fullname cfg.root name, d⟩ with he
  have hnew := place_ne hes hnodup
  have htmp : e.tmp ∈ es.map FullEntry.tmp := List.mem_map_of_mem (by rw [hes]; simp)
  rw [restoreEntry, hresolve]
  dsimp only
  rw [wp_bind]
  refine wp_mono (wp_discardTmp hstuck _ h.ok) ?_ ?_
  swap
  · exact fun _ w' hstop q hq => h.broken hok₀ hes hstop.1 htmp hq
  rintro _ w₁ ⟨hstill₁, hfreed⟩
  have h₁ := h.freed hok₀ hstill₁ hfreed htmp
  cases hlink : (inodenum d).bind fun n => r.inodes.lookup n with
  | some path =>
    -- a link to a file we already unpacked
    obtain ⟨n, hn, hpath⟩ := Option.bind_eq_some_iff.mp hlink
    obtain ⟨e', he', rfl, hsource, hcomplete⟩ := h₁.inodes n path hpath
    refine wp_mono (wp_restoreLink hslash h₁.ok) ?_ ?_
    swap
    · exact fun _ w' hstop q hq => h₁.broken hok₀ hes hstop.1 htmp hq
    rintro r' w₂ ⟨rfl, hstill₂, hok₂, i, hi, hnamed⟩
    obtain ⟨hle, ino, hino, hc⟩ := hcomplete i hi
    rcases hnamed with hnamed | ⟨hold, -⟩
    · obtain ⟨ino', hino', halike⟩ := hnamed.old i (h₁.ok.inode hi) ino hino
      refine ⟨h₁.placed hok₀ hnew hstill₂ hok₂ hnamed ?_ (fun _ _ hm => .inl hm) fun _ hm => .inl hm, rfl⟩
      refine .linked rfl he' rfl hn hsource hnamed.lookup_self hino' (hc.alike halike) (.inl ?_)
      exact (hnamed.lookup_ne (hnew e' he')).trans hi
    · -- a new file would have the name of an entry that comes later
      obtain ⟨e'', he'', hplace⟩ := h₁.fresh _ i hold hle
      exact absurd hplace (hnew e'' he'')
  | none =>
    refine wp_mono (wp_restoreNew _ hslash h₁.ok h₁.knows hfreed.free) ?_ ?_
    swap
    · exact fun _ w' hstop q hq => h₁.broken hok₀ hes hstop.1 htmp hq
    rintro r' w₂ (hmade | ⟨rfl, hskipped, -⟩)
    · obtain ⟨ino, hino, hcomplete⟩ := hmade.complete
      rw [h₁.store] at hcomplete
      refine ⟨h₁.placed hok₀ hnew hmade.still hmade.ok hmade.named ?_ ?_ ?_, ?_⟩
      · exact .new (by simp) rfl hmade.named.lookup_self hino hcomplete
      · intro n path hpath
        rw [hmade.restoring] at hpath
        dsimp only at hpath
        split at hpath
        · rename_i n' htype hn'
          rw [List.lookup_cons] at hpath
          split at hpath
          · rename_i heq
            obtain rfl := beq_iff_eq.mp heq
            exact .inr ⟨(Option.some.inj hpath).symm, ⟨htype, hn'⟩, h₁.length, ino, hino, hcomplete⟩
          · exact .inl hpath
        · exact .inl hpath
      · intro stamp hm
        rw [hmade.restoring] at hm
        rcases List.mem_append.mp hm with hm | hm
        · exact .inl hm
        split at hm
        · rename_i htype
          rw [List.mem_singleton.mp hm]
          exact .inr ⟨rfl, ino, hino, hcomplete.body.body_of_dir htype⟩
        · cases hm
      · rw [hmade.restoring]
    · exact ⟨(h₁.withDir dir).skip e hskipped.store hskipped.target hskipped.knows, rfl⟩

/-! ### The whole index -/

/-- The loop over the index. -/
theorem RunState.wp_restoreEntries (hok₀ : w₀.target.Ok) (hstuck : ∀ n, (cfg.env n).stuck = none)
    (hnodup : (es.map FullEntry.place).Nodup) : ∀ (turns : Nat) (f : InFile) {done : List FullEntry}
    {r : Restoring} {w : World}, RunState cfg w₀ es done r w →
    es = done ++ fullNames cfg r.dir (readEntries turns f).1 →
    wp (restoreEntries cfg turns f r) (fun r' w' => RunState cfg w₀ es es r' w')
      (fun _ w' => ∀ q, q ∉ es.map FullEntry.tmp →
        Intact cfg w₀.store (es.map FullEntry.tmp) es w₀.target w'.target q) w
  | 0, _, done, r, w, h, hes => by
    rw [readEntries, fullNames, List.append_nil] at hes
    exact hes ▸ h
  | turns + 1, f, done, r, w, h, hes => by
    rw [restoreEntries]
    rw [readEntries] at hes
    cases hread : readIndexLine f with
    | error e =>
      rw [hread, fullNames, List.append_nil] at hes
      intro q hq
      exact hes ▸ h.intact q hq
    | ok p =>
      obtain ⟨_ | d, f'⟩ := p
      · rw [hread, fullNames, List.append_nil] at hes
        exact hes ▸ h
      rw [hread] at hes
      dsimp only at hes ⊢
      rw [wp_bind]
      -- a name that is not resolved is an error, and the loop goes on
      cases hresolve : resolveName r.dir (cfg.convert (d.get (lit "name"))) with
      | none =>
        rw [fullNames, hresolve] at hes
        rw [restoreEntry, hresolve]
        dsimp only at hes ⊢
        rw [wp_bind, wp_error, wp_pure]
        have h' : RunState cfg w₀ es done r { w with errors := w.errors + 1 } :=
          ⟨h.store, h.knows, h.ok, h.length, h.intact, h.fresh, h.inodes, h.dirs⟩
        exact RunState.wp_restoreEntries hok₀ hstuck hnodup turns f' h' hes
      | some p =>
        obtain ⟨name, dir⟩ := p
        rw [fullNames, hresolve] at hes
        dsimp only at hes
        refine wp_mono (h.wp_restoreEntry hok₀ hstuck hnodup hresolve hes) ?_ fun _ _ hstop => hstop
        rintro r' w' ⟨h', rfl⟩
        refine RunState.wp_restoreEntries hok₀ hstuck hnodup turns f' h' ?_
        rw [hes, List.append_assoc]
        rfl

/-- No name is changed, and no inode but for the times of directories. -/
def Target.Settled (t t' : Target) : Prop :=
  (∀ q, t'.names.lookup q = t.names.lookup q) ∧ ∀ j < t.inodes.length, t.SameInode t' j

/-- Only times of directories are fixed up. -/
theorem RunState.wp_fixDirtimes (h : RunState cfg w₀ es done r w) :
    wp (fixDirtimes cfg r.dirtimes) (fun _ w' => w.target.Settled w'.target)
      (fun _ w' => w.target.Settled w'.target) w := by
  unfold fixDirtimes
  refine wp_forM (fun _ (w' : World) => w.target.Settled w'.target) ?_
    ⟨fun _ => rfl, fun j _ => .refl _ j⟩
  intro pre stamp post w₁ hl hsettled
  obtain ⟨e, -, hfull, hdir⟩ := h.dirs stamp (by rw [hl]; simp)
  apply wp_change
  · intro t ht
    change w₁.target.change (components stamp.dir) _ = .ok t at ht
    unfold Target.change at ht
    split at ht
    · cases ht
    rename_i i hi
    obtain rfl := Except.ok.inj ht
    have hi' : w.target.names.lookup e.place = some i := by
      rw [← hsettled.1, FullEntry.place, hfull]
      exact hi
    refine ⟨hsettled.1, fun j hj => (hsettled.2 j hj).trans ?_⟩
    intro ino hino
    by_cases hji : j = i
    · subst hji
      -- it is a directory
      obtain ⟨dir, hdirIno, hbody⟩ := hdir j hi'
      obtain ⟨ino', hino', halike⟩ := hsettled.2 j hj dir hdirIno
      obtain rfl := Option.some.inj (hino'.symm.trans hino)
      exact ⟨_, getElem?_update_self _ hino, .inr ⟨halike.body.trans hbody, rfl⟩⟩
    · exact ⟨ino, (getElem?_update_ne _ hji).trans hino, .refl ino⟩
  · exact fun _ _ => hsettled

theorem RunState.settled (h : RunState cfg w₀ es es r w) (hok₀ : w₀.target.Ok)
    (hsettled : w.target.Settled w'.target) (hq : q ∉ es.map FullEntry.tmp) :
    Intact cfg w₀.store (es.map FullEntry.tmp) es w₀.target w'.target q :=
  (h.intact q hq).same h.ok hok₀ h.length (hsettled.1 q) hsettled.2 fun _ _ => .inr (hsettled.1 _)

/-- **Restoring replaces files atomically** if the entries of the index have different places: wherever
the run ends, under any name that is not a temporary one there is what was there before, or something
complete. -/
theorem do_restore_replaces_atomically (cfg : Config) (hstuck : ∀ n, (cfg.env n).stuck = none)
    (w : World) (hok : w.target.Ok) (hknows : KnowsIds cfg w.names)
    (hnodup : ((toRestore cfg w).map FullEntry.place).Nodup) :
    Presented cfg w (stateAfter (do_restore cfg) w) := by
  refine (wp_stateAfter _ _ _).mp ?_
  have hunchanged : ∀ n, Presented cfg w { w with clock := n } := fun n q _ =>
    .inl ⟨rfl, fun i _ => .refl _ i⟩
  rw [do_restore, wp_ite]
  split
  · exact hunchanged w.clock
  rw [wp_ite]
  split
  · exact hunchanged w.clock
  rw [wp_ite]
  split
  · exact hunchanged w.clock
  rw [wp_bind, Backupfs.openRead, wp_bind, wp_tick]
  split
  · exact hunchanged _
  rw [wp_bind, wp_get, wp_liftExcept]
  unfold Presented
  unfold toRestore at hnodup ⊢
  dsimp only
  -- nothing is restored unless the index can be opened
  cases hfile : Backupfs.fileAt (cfg.env w.clock).reads w.store cfg.indexfile with
  | error e =>
    intro q _
    exact .inl ⟨rfl, fun i _ => .refl _ i⟩
  | ok f =>
    rw [hfile] at hnodup
    dsimp only at hnodup ⊢
    rw [wp_bind]
    refine wp_mono (RunState.wp_restoreEntries hok hstuck hnodup _ f (.start hok hknows) rfl) ?_
      fun _ _ hstop => hstop
    intro r w' h
    exact wp_mono h.wp_fixDirtimes (fun _ _ hs _ hq => h.settled hok hs hq)
      fun _ _ hs _ hq => h.settled hok hs hq

/-! ### A name that comes twice -/

theorem ok_emptyRoot (index : Bytes) : (emptyRoot index).target.Ok := by
  have hlookup : ∀ q i, (emptyRoot index).target.names.lookup q = some i → q = [lit "r"] ∧ i = 0 := by
    intro q i hi
    by_cases hq : q = [lit "r"]
    · subst hq
      exact ⟨rfl, (Option.some.inj ((AList.lookup_insert _).symm.trans hi)).symm⟩
    · have hnone : (emptyRoot index).target.names.lookup q = none := AList.lookup_insert_ne hq
      rw [hnone] at hi
      cases hi
  constructor
  · cases h : (emptyRoot index).target.names.lookup [] with
    | none => rfl
    | some i => cases (hlookup _ _ h).1
  · intro q i hi
    rw [(hlookup q i hi).2]
    exact Nat.zero_lt_one
  · intro q hsome
    obtain ⟨i, hi⟩ := Option.isSome_iff_exists.mp hsome
    rw [(hlookup q i hi).1]
    rfl

theorem Describes.body_of_data {d : Details} {data : Bytes} {body : Body} (h : Describes cfg s d body)
    (htype : d (lit "type") = none) (hdata : d (lit "data") = some data) : body = .file data := by
  rcases h.of_regular htype with ⟨data', hdata', rfl⟩ | ⟨hnone, -⟩
  · rw [Option.some.inj (hdata.symm.trans hdata')]
  · rw [hdata] at hnone
    cases hnone

/-- `x` is restored, and replaced; then `y` becomes a link to it. -/
def twiceX : Bytes :=
  lit "name=x&inode=5&data=foo\nname=x&data=bar\nname=y&inode=5&data=foo\n[end]\n"

/-- No component of the name is `.` or `..`. -/
def FullEntry.Plain (e : FullEntry) : Prop := lit "." ∉ e.full.splitOn 47 ∧ lit ".." ∉ e.full.splitOn 47

instance (e : FullEntry) : Decidable e.Plain := inferInstanceAs (Decidable (_ ∧ _))

/-- No symbolic link is on the way to `q`. -/
def Target.Unlinked (t : Target) (q : List Bytes) : Prop :=
  ∀ p, p <+: q.dropLast → ∀ ino target, t.get p = some ino → ino.body ≠ .link target

/-- If a name comes twice, a file may be restored as a link to another one. -/
theorem twiceX_shows : ¬ ∀ (cfg : Config) (w : World), (∀ n, (cfg.env n).stuck = none) →
    w.target.Ok → KnowsIds cfg w.names →
    (∀ e ∈ toRestore cfg w, e.Plain ∧ w.target.Unlinked e.place) →
    Presented cfg w (stateAfter (do_restore cfg) w) := by
  intro h
  set w := emptyRoot twiceX with hw
  set cfg := smallRestore none with hcfg
  have hplain : ∀ e ∈ toRestore cfg w, e.Plain := by decide +kernel
  have hunlinked : ∀ q, w.target.Unlinked q := by
    intro q p _ ino target hget hbody
    obtain ⟨i, -, hino⟩ := Option.bind_eq_some_iff.mp hget
    rw [List.mem_singleton.mp (List.mem_of_getElem? hino)] at hbody
    cases hbody
  have hpresented := h cfg w (fun _ => rfl) (ok_emptyRoot _) ⟨by simp [w, emptyRoot], by simp [w, emptyRoot]⟩
    fun e he => ⟨hplain e he, hunlinked _⟩
  -- after the run `y` is a file with `bar` in it
  have hlookup : (stateAfter (do_restore cfg) w).target.names.lookup [lit "r", lit "y"] = some 2 := by
    decide +kernel
  have hbody : (stateAfter (do_restore cfg) w).target.inodes[2]?.map Inode.body =
      some (.file (lit "bar")) := by decide +kernel
  have hfoo : ∀ e ∈ toRestore cfg w, e.place = [lit "r", lit "y"] ∨ (inodenum e.details).isSome →
      e.details (lit "type") = none ∧ e.details (lit "data") = some (lit "foo") := by decide +kernel
  -- no entry describes that
  have hcontra : ∀ e ∈ toRestore cfg w, e.place = [lit "r", lit "y"] ∨ (inodenum e.details).isSome →
      ∀ i ino, (stateAfter (do_restore cfg) w).target.names.lookup [lit "r", lit "y"] = some i →
        (stateAfter (do_restore cfg) w).target.inodes[i]? = some ino →
        ¬ Complete cfg w.store e.details ino := by
    intro e he hor i ino hi hino hcomplete
    obtain ⟨htype, hdata⟩ := hfoo e he hor
    rw [hlookup] at hi
    rw [← Option.some.inj hi] at hino
    rw [hino, Option.map_some, hcomplete.body.body_of_data htype hdata] at hbody
    exact absurd hbody (by decide)
  rcases hpresented [lit "r", lit "y"] (by decide +kernel) with ⟨hsame, -⟩ | hshown
  · rw [hlookup] at hsame
    exact absurd hsame (by decide)
  cases hshown with
  | new he hplace hname hino hcomplete => exact hcontra _ he (.inl hplace) _ _ hname hino hcomplete
  | linked hdone he' _ _ hsource hname hino hcomplete =>
    refine hcontra _ ?_ (.inr (by rw [hsource.2]; rfl)) _ _ hname hino hcomplete
    rw [hdone]
    exact List.mem_append_left _ he'

/-- Nothing can be removed. -/
def stuckRestore : Config :=
  { smallRestore none with env := fun n => { (smallRestore none).env n with stuck := some EACCES } }

/-- A temporary name has been left by an earlier run; `b` is another name of that file. -/
def leftoverRoot : World where
  store := (∅ : Store).insert (lit "/i") (.file (lit "name=a&data=new\n[end]\n"))
  target := {
    names := (((∅ : AList fun _ : List Bytes => Nat).insert [lit "r"] 0).insert [lit "r", lit "b"]
      1).insert [lit "r", lit "a~restore~"] 1
    inodes := [⟨.dir, 0o755, 0, 0, 0, 0⟩, ⟨.file (lit "old"), 0o644, 0, 0, 0, 0⟩] }

theorem ok_leftoverRoot : leftoverRoot.target.Ok := by
  have hlookup : ∀ q i, leftoverRoot.target.names.lookup q = some i →
      i < 2 ∧ (q = [lit "r"] ∨ q.dropLast = [lit "r"]) := by
    intro q i hi
    have hq : q ∈ leftoverRoot.target.names := by
      rw [← AList.lookup_isSome, hi]
      rfl
    have hall : ∀ q ∈ leftoverRoot.target.names.keys,
        (leftoverRoot.target.names.lookup q).any (· < 2) = true ∧
          (q = [lit "r"] ∨ q.dropLast = [lit "r"]) := by decide +kernel
    have h := hall q (AList.mem_keys.mp hq)
    rw [hi] at h
    simpa using h
  constructor
  · decide +kernel
  · exact fun hi => (hlookup _ _ hi).1
  · intro q hsome
    obtain ⟨i, hi⟩ := Option.isSome_iff_exists.mp hsome
    rcases (hlookup q i hi).2 with rfl | hq
    · rfl
    · rw [hq]
      decide +kernel

/-- If what is left under a temporary name cannot be removed, it is written to, and with it the other
names of that file. -/
theorem leftoverRoot_shows : ¬ ∀ (cfg : Config) (w : World), w.target.Ok → KnowsIds cfg w.names →
    (∀ e ∈ toRestore cfg w, e.Plain ∧ w.target.Unlinked e.place) →
    ((toRestore cfg w).map FullEntry.place).Nodup →
    Presented cfg w (stateAfter (do_restore cfg) w) := by
  intro h
  have hplain : ∀ e ∈ toRestore stuckRestore leftoverRoot, e.Plain := by decide +kernel
  have hunlinked : ∀ q, leftoverRoot.target.Unlinked q := by
    intro q p _ ino target hget hbody
    obtain ⟨i, -, hino⟩ := Option.bind_eq_some_iff.mp hget
    have hm := List.mem_of_getElem? hino
    simp only [leftoverRoot, List.mem_cons, List.not_mem_nil, or_false] at hm
    rcases hm with rfl | rfl <;> cases hbody
  have hpresented := h stuckRestore leftoverRoot ok_leftoverRoot
    ⟨by simp [leftoverRoot], by simp [leftoverRoot]⟩ (fun e he => ⟨hplain e he, hunlinked _⟩)
    (by decide +kernel)
  have hbody : (stateAfter (do_restore stuckRestore) leftoverRoot).target.inodes[1]?.map Inode.body =
      some (.file (lit "new")) := by decide +kernel
  have hplace : ∀ e ∈ toRestore stuckRestore leftoverRoot, e.place ≠ [lit "r", lit "b"] := by
    decide +kernel
  rcases hpresented [lit "r", lit "b"] (by decide +kernel) with ⟨-, hsame⟩ | hshown
  · obtain ⟨ino, hino, halike⟩ := hsame 1 (by decide +kernel) _ rfl
    rw [hino, Option.map_some, halike.body] at hbody
    exact absurd hbody (by decide)
  cases hshown with
  | new he hq => exact hplace _ he hq
  | linked hdone _ hq => exact hplace _ (by rw [hdone]; simp) hq

theorem not_replaces_atomically :
    (¬ ∀ (cfg : Config) (w : World), (∀ n, (cfg.env n).stuck = none) →
      w.target.Ok → KnowsIds cfg w.names →
      (∀ e ∈ toRestore cfg w, e.Plain ∧ w.target.Unlinked e.place) →
      Presented cfg w (stateAfter (do_restore cfg) w)) ∧
    ¬ ∀ (cfg : Config) (w : World), w.target.Ok → KnowsIds cfg w.names →
      (∀ e ∈ toRestore cfg w, e.Plain ∧ w.target.Unlinked e.place) →
      ((toRestore cfg w).map FullEntry.place).Nodup →
      Presented cfg w (stateAfter (do_restore cfg) w) :=
  ⟨twiceX_shows, leftoverRoot_shows⟩

/-- The two names of a file. -/
theorem replaces_atomically_twoNames :
    Presented (smallRestore none) (emptyRoot (lit "name=x&inode=5&data=foo\nname=y&inode=5\n[end]\n"))
      (stateAfter (do_restore (smallRestore none))
        (emptyRoot (lit "name=x&inode=5&data=foo\nname=y&inode=5\n[end]\n"))) :=
  do_restore_replaces_atomically _ (fun _ => rfl) _ (ok_emptyRoot _)
    ⟨by simp [emptyRoot], by simp [emptyRoot]⟩ (by decide +kernel)

end Hbackup
