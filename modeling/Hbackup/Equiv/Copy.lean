import Hbackup.Backup
import Hbackup.Equiv.Paths
import Hbackup.Equiv.Writes

/-!
# Copying into the repository

An existence probe that is in flight or answered is right about the repository as it is now
(`Asked`), so that `exists` gives what a direct look would give.  `addHashable` leaves the store
alone if the object is there, and else makes its directory, the object, and nothing more (`Added`);
stopped on the way, it has touched no object (`Scratched`).
-/

namespace Hbackup

open ProgramLogic

variable {cfg : Config} {w w' : World}

/-! ### Existence -/

/-- Every call is answered from what is there. -/
def Faultless (cfg : Config) : Prop := ∀ n, (cfg.env n).fault = none

/-- What is neither the store nor what is known about it. -/
structure Beside (w w' : World) : Prop where
  names : w'.names = w.names
  inrepo : w'.inrepo = w.inrepo
  hints : w'.hints = w.hints
  hintFiles : SameHints w w'

theorem Beside.refl (w : World) : Beside w w := ⟨rfl, rfl, rfl, .refl w⟩

theorem Beside.trans {w w' w'' : World} (h : Beside w w') (h' : Beside w' w'') : Beside w w'' :=
  ⟨h'.names.trans h.names, h'.inrepo.trans h.inrepo, h'.hints.trans h.hints,
    h.hintFiles.trans h'.hintFiles⟩

theorem Puts.beside {path : Bytes} (h : Puts path w w') : Beside w w' :=
  ⟨h.books.names, h.books.inrepo, h.books.hints, h.hints⟩

/-- Only the clock and what is known about existence have changed. -/
structure OnlyAsked (w w' : World) : Prop where
  store : w'.store = w.store
  written : w'.written = w.written
  beside : Beside w w'

theorem OnlyAsked.refl (w : World) : OnlyAsked w w := ⟨rfl, rfl, .refl w⟩

theorem OnlyAsked.trans {w w' w'' : World} (h : OnlyAsked w w') (h' : OnlyAsked w' w'') :
    OnlyAsked w w'' :=
  ⟨h'.store.trans h.store, h'.written.trans h.written, h.beside.trans h'.beside⟩

theorem OnlyAsked.asking (w : World) (n : Nat) (existence inflight : List (Bytes × Bool)) :
    OnlyAsked w { w with clock := n, existence, existence_inflight := inflight } :=
  ⟨rfl, rfl, rfl, rfl, rfl, rfl, rfl⟩

/-- An answer that `path` exists is right; if every call is answered from what is there, the answer
that it doesn't is right too. -/
def Answer (cfg : Config) (s : Store) (path : Bytes) (found : Bool) : Prop :=
  (found = true → (s.lookup path).isSome) ∧
    (Faultless cfg → (s.lookup path).isSome → found = true)

theorem Answer.self (cfg : Config) (s : Store) (path : Bytes) :
    Answer cfg s path (s.lookup path).isSome := ⟨id, fun _ h => h⟩

/-- Probes are of the paths `K`, and right; on the local filesystem there are none. -/
structure Asked (cfg : Config) (K : Bytes → Prop) (w : World) : Prop where
  right : ∀ path found, (path, found) ∈ w.existence ∨ (path, found) ∈ w.existence_inflight →
    K path ∧ Answer cfg w.store path found
  none : cfg.sftp = false → w.existence = [] ∧ w.existence_inflight = []

theorem Asked.mono {K K' : Bytes → Prop} (h : Asked cfg K w) (hK : ∀ path, K path → K' path) :
    Asked cfg K' w := ⟨fun path found hm => (h.right path found hm).imp_left (hK path), h.none⟩

/-- The probes are still right if none of their paths has changed. -/
theorem Asked.congr {K : Bytes → Prop} (h : Asked cfg K w) (he : w'.existence = w.existence)
    (hi : w'.existence_inflight = w.existence_inflight)
    (hs : ∀ path, K path → (w'.store.lookup path).isSome = (w.store.lookup path).isSome) :
    Asked cfg K w' := by
  refine ⟨fun path found hm => ?_, by rw [he, hi]; exact h.none⟩
  rw [he, hi] at hm
  obtain ⟨hK, hyes, hno⟩ := h.right path found hm
  exact ⟨hK, fun hf => by rw [hs path hK]; exact hyes hf,
    fun hfault hf => hno hfault (by rwa [← hs path hK])⟩

/-- An answer, early or late, that arrives or is taken for a no. -/
theorem Answer.reply {s : Store} {path : Bytes} {before : Bool} (h : Answer cfg s path before)
    (n : Nat) : Answer cfg s path
      ((if (cfg.env n).early then before else (s.lookup path).isSome) &&
        (cfg.env n).fault.isNone) := by
  have hlook : Answer cfg s path (if (cfg.env n).early then before else (s.lookup path).isSome) := by
    split_ifs
    · exact h
    · exact .self cfg s path
  refine ⟨fun hf => hlook.1 (Bool.and_eq_true_iff.mp hf).1, fun hfault hf => ?_⟩
  rw [hfault n, hlook.2 hfault hf]
  rfl

/-- The answers come in. -/
theorem wp_collectExistence {K : Bytes → Prop} {inflight : List (Bytes × Bool)}
    (hin : w.existence_inflight = inflight) (h : Asked cfg K w) :
    wp (Backupfs.collectExistence cfg inflight)
      (fun _ w' => Asked cfg K w' ∧ OnlyAsked w w' ∧ w'.existence_inflight = [] ∧
        ∀ path, path ∈ (w.existence ++ inflight).map Prod.fst → path ∈ w'.existence.map Prod.fst)
      (fun _ w' => OnlyAsked w w') w := by
  induction inflight generalizing w with
  | nil => exact ⟨h, .refl w, hin, fun path hp => by rwa [List.append_nil] at hp⟩
  | cons pb inflight ih =>
    obtain ⟨path, before⟩ := pb
    have hpath := h.right path before (.inr (by rw [hin]; exact List.mem_cons_self))
    rw [Backupfs.collectExistence, wp_bind, wp_tick]
    split
    · exact .asking w _ _ _
    rw [wp_bind, wp_modify]
    dsimp only
    refine wp_mono (ih rfl ⟨?_, ?_⟩) ?_ ?_
    · rintro path' found (hm | hm)
      · rcases List.mem_cons.mp hm with he | hm
        · obtain ⟨rfl, rfl⟩ := Prod.mk.inj he
          exact ⟨hpath.1, hpath.2.reply _⟩
        · exact h.right path' found (.inl hm)
      · exact h.right path' found (.inr (by rw [hin]; exact List.mem_cons_of_mem _ hm))
    · intro hlocal
      rw [(h.none hlocal).2] at hin
      cases hin
    · rintro _ w' ⟨ha, ho, hi, hkeys⟩
      refine ⟨ha, (OnlyAsked.asking w _ _ _).trans ho, hi, fun path' hp => hkeys path' ?_⟩
      simp only [List.map_append, List.map_cons, List.mem_append, List.mem_cons] at hp ⊢
      tauto
    · exact fun _ w' ho => (OnlyAsked.asking w _ _ _).trans ho

theorem wp_prefigure_exists {K : Bytes → Prop} (h : Asked cfg K w) (path : Bytes) :
    wp (Backupfs.prefigure_exists cfg path)
      (fun _ w' => Asked cfg (fun p => K p ∨ p = path) w' ∧ OnlyAsked w w' ∧
        (cfg.sftp = true → path ∈ w'.existence_inflight.map Prod.fst))
      (fun _ w' => OnlyAsked w w') w := by
  have hmono : Asked cfg (fun p => K p ∨ p = path) w := h.mono fun _ => .inl
  rw [Backupfs.prefigure_exists, wp_ite]
  split_ifs with hsftp
  · rw [wp_bind]
    refine wp_mono (wp_call_untouched cfg _ path w) ?_ ?_
    · rintro m w' ⟨-, rfl⟩
      rw [wp_modify]
      refine ⟨⟨?_, fun hlocal => absurd (hlocal.symm.trans hsftp) (by simp)⟩, .asking w _ _ _,
        fun _ => by simp⟩
      rintro path' found (hm | hm)
      · exact hmono.right path' found (.inl hm)
      · rcases List.mem_append.mp hm with hm | hm
        · exact hmono.right path' found (.inr hm)
        · obtain ⟨rfl, rfl⟩ := Prod.mk.inj (List.mem_singleton.mp hm)
          exact ⟨.inr rfl, .self cfg _ _⟩
    · rintro _ w' ⟨rfl, -⟩
      exact .asking w _ _ _
  · exact ⟨hmono, .refl w, fun hs => absurd hs hsftp⟩

/-- The answer about `path` is used up. -/
theorem Asked.consume {K : Bytes → Prop} {path : Bytes} (h : Asked cfg (fun p => K p ∨ p = path) w)
    (hin : w.existence_inflight = []) :
    Asked cfg (fun p => K p ∧ p ≠ path)
      { w with existence := w.existence.filter (·.1 ≠ path) } := by
  refine ⟨?_, fun hlocal => ⟨by rw [(h.none hlocal).1]; rfl, hin⟩⟩
  rintro path' found (hm | hm)
  · obtain ⟨hmem, hne⟩ := List.mem_filter.mp hm
    have hne : path' ≠ path := by simpa using hne
    obtain ⟨hK, ha⟩ := h.right path' found (.inl hmem)
    exact ⟨⟨hK.resolve_right hne, hne⟩, ha⟩
  · rw [show (_ : World).existence_inflight = [] from hin] at hm
    cases hm

theorem mem_of_lookup {l : List (Bytes × Bool)} {path : Bytes} {found : Bool}
    (h : l.lookup path = some found) : (path, found) ∈ l := by
  obtain ⟨l₁, l₂, rfl, -⟩ := List.lookup_eq_some_iff.mp h
  simp

theorem lookup_of_mem {l : List (Bytes × Bool)} {path : Bytes} (h : path ∈ l.map Prod.fst) :
    ∃ found, l.lookup path = some found := by
  obtain ⟨⟨path, found⟩, hm, rfl⟩ := List.mem_map.mp h
  cases hl : l.lookup path with
  | some found' => exact ⟨found', rfl⟩
  | none => exact absurd rfl (bne_iff_ne.mp (List.lookup_eq_none_iff.mp hl _ hm))

/-- **`exists` answers as a direct look would.** -/
theorem wp_exists {K : Bytes → Prop} (h : Asked cfg K w) (path : Bytes) :
    wp (Backupfs.exists_ cfg path)
      (fun found w' => Answer cfg w.store path found ∧ Asked cfg (fun p => K p ∧ p ≠ path) w' ∧
        OnlyAsked w w')
      (fun _ w' => OnlyAsked w w') w := by
  rw [Backupfs.exists_, wp_ite]
  split_ifs with hsftp
  · rw [wp_bind, wp_get, wp_bind]
    refine wp_mono (wp_collectExistence rfl h) ?_ fun _ _ ho => ho
    rintro _ w₁ ⟨h₁, ho₁, hin₁, -⟩
    rw [wp_bind, wp_get]
    split
    · -- there is an answer already
      rename_i found hfound
      have hans := (h₁.right path found (.inl (mem_of_lookup hfound))).2
      rw [ho₁.store] at hans
      rw [wp_bind, wp_modify, wp_pure]
      exact ⟨hans, (h₁.mono fun _ => .inl).consume hin₁, ho₁.trans (.asking w₁ _ _ _)⟩
    · rw [wp_bind]
      refine wp_mono (wp_prefigure_exists h₁ path) ?_ fun _ _ ho => ho₁.trans ho
      rintro _ w₂ ⟨h₂, ho₂, hasked⟩
      rw [wp_bind, wp_get, wp_bind]
      refine wp_mono (wp_collectExistence rfl h₂) ?_ fun _ _ ho => (ho₁.trans ho₂).trans ho
      rintro _ w₃ ⟨h₃, ho₃, hin₃, hkeys⟩
      have ho := (ho₁.trans ho₂).trans ho₃
      obtain ⟨found, hfound⟩ := lookup_of_mem (hkeys path (by
        rw [List.map_append]
        exact List.mem_append_right _ (hasked hsftp)))
      have hans := (h₃.right path found (.inl (mem_of_lookup hfound))).2
      rw [ho.store] at hans
      rw [wp_bind, wp_get, wp_bind, wp_modify, wp_pure]
      simp only [hfound]
      exact ⟨hans, h₃.consume hin₃, ho.trans (.asking w₃ _ _ _)⟩
  · rw [wp_bind]
    refine wp_mono (wp_call_untouched cfg _ path w) ?_ ?_
    · rintro m w' ⟨-, rfl⟩
      rw [wp_bind, wp_get, wp_pure]
      have hnone := h.none (by simpa using hsftp)
      refine ⟨.self cfg _ _, ⟨fun path' found hm => ?_, fun _ => hnone⟩, .asking w _ _ _⟩
      rw [show (_ : World).existence = [] from hnone.1,
        show (_ : World).existence_inflight = [] from hnone.2] at hm
      exact absurd hm (by simp)
    · rintro _ w' ⟨rfl, -⟩
      exact .asking w _ _ _

/-! ### Directories -/

/-- `d` is made a directory, unless there is something already. -/
def Store.addDir (s : Store) (d : Bytes) : Store :=
  if (s.lookup d).isSome then s else s.insert d .dir

/-- What `makedirs` makes. -/
def Store.makedirs (s : Store) (path : Bytes) : Store :=
  if (s.lookup path).isSome then s else (parents path ++ [path]).foldl Store.addDir s

/-- Directories with names shorter than `n` are new, and nothing else. -/
def Deepened (n : Nat) (s s' : Store) : Prop :=
  ∀ q, s'.lookup q = s.lookup q ∨ q.length < n ∧ s.lookup q = none ∧ s'.lookup q = some .dir

theorem Deepened.refl (n : Nat) (s : Store) : Deepened n s s := fun _ => .inl rfl

theorem Deepened.trans {n : Nat} {s s' s'' : Store} (h : Deepened n s s') (h' : Deepened n s' s'') :
    Deepened n s s'' := by
  intro q
  rcases h q with hq | ⟨hlen, hnone, hdir⟩
  · rw [← hq]
    exact h' q
  · rcases h' q with hq' | ⟨-, hnone', -⟩
    · exact .inr ⟨hlen, hnone, hq'.trans hdir⟩
    · rw [hnone'] at hdir
      cases hdir

theorem Deepened.mono {n n' : Nat} {s s' : Store} (h : Deepened n s s') (hn : n ≤ n') :
    Deepened n' s s' := fun q => (h q).imp_right fun hq => ⟨hq.1.trans_le hn, hq.2⟩

/-- Longer names are not concerned. -/
theorem Deepened.lookup {n : Nat} {s s' : Store} (h : Deepened n s s') {q : Bytes}
    (hq : n ≤ q.length) : s'.lookup q = s.lookup q :=
  (h q).resolve_right fun hq' => by omega

theorem deepened_addDir {n : Nat} (s : Store) {d : Bytes} (hd : d.length < n) :
    Deepened n s (s.addDir d) := by
  intro q
  unfold Store.addDir
  split_ifs with hsome
  · exact .inl rfl
  · by_cases hq : q = d
    · rw [hq, AList.lookup_insert]
      exact .inr ⟨hd, by simpa using hsome, rfl⟩
    · exact .inl (AList.lookup_insert_ne hq)

theorem deepened_foldl {n : Nat} (s : Store) {ds : List Bytes} (hds : ∀ d ∈ ds, d.length < n) :
    Deepened n s (ds.foldl Store.addDir s) := by
  induction ds generalizing s with
  | nil => exact .refl n s
  | cons d ds ih =>
    exact (deepened_addDir s (hds d List.mem_cons_self)).trans
      (ih _ fun d' hd' => hds d' (List.mem_cons_of_mem d hd'))

theorem length_of_mem_parents {path d : Bytes} (h : d ∈ parents path) : d.length < path.length := by
  obtain ⟨n, hn, hd⟩ := List.mem_filterMap.mp h
  rw [Option.ite_none_right_eq_some] at hd
  obtain ⟨-, hd⟩ := hd
  rw [← Option.some.inj hd, List.length_take]
  have := List.mem_range.mp hn
  omega

theorem deepened_makedirs (s : Store) (path : Bytes) :
    Deepened (path.length + 1) s (s.makedirs path) := by
  unfold Store.makedirs
  split_ifs
  · exact .refl _ s
  · refine deepened_foldl s fun d hd => ?_
    rcases List.mem_append.mp hd with hd | hd
    · exact Nat.lt_succ_of_lt (length_of_mem_parents hd)
    · rw [List.mem_singleton.mp hd]
      exact Nat.lt_succ_self _

/-- A run that stopped while it made directories. -/
structure Dug (n : Nat) (w w' : World) : Prop where
  store : Deepened n w.store w'.store
  written : w'.written = w.written
  beside : Beside w w'

theorem OnlyAsked.dug (h : OnlyAsked w w') (n : Nat) : Dug n w w' :=
  ⟨h.store ▸ .refl n _, h.written, h.beside⟩

/-- One directory. -/
theorem wp_makedir {K : Bytes → Prop} (h : Asked cfg K w) {d : Bytes}
    (hK : ∀ path, K path → d.length < path.length) :
    wp (do if ← Backupfs.exists_ cfg d then return else Backupfs.mkdir cfg d)
      (fun _ w' => w'.store = w.store.addDir d ∧ Asked cfg K w' ∧ w'.written = w.written ∧
        Beside w w')
      (fun _ w' => OnlyAsked w w') w := by
  rw [wp_bind]
  refine wp_mono (wp_exists h d) ?_ fun _ _ ho => ho
  rintro found w₁ ⟨hans, h₁, ho⟩
  replace h₁ := h₁.mono fun _ => And.left
  rw [wp_ite]
  split_ifs with hfound
  · refine ⟨?_, h₁, ho.written, ho.beside⟩
    rw [ho.store, Store.addDir, if_pos (hans.1 hfound)]
  · refine wp_mono (wp_mkdir cfg d w₁) ?_ ?_
    · rintro _ w₂ ⟨hnone, rfl⟩
      have hne : ∀ path, K path → path ≠ d := by
        rintro path hp rfl
        exact absurd (hK path hp) (Nat.lt_irrefl _)
      refine ⟨?_, h₁.congr rfl rfl fun path hp => ?_, ho.written,
        ho.beside.trans ⟨rfl, rfl, rfl, rfl, rfl⟩⟩
      · rw [ho.store] at hnone
        simp only [Store.addDir, hnone, ho.store]
        rfl
      · exact congrArg Option.isSome (AList.lookup_insert_ne (hne path hp))
    · rintro _ w₂ rfl
      exact ho.trans (.asking w₁ _ _ _)

/-- **`makedirs` makes the directory, with all above it, or finds it.** -/
theorem wp_makedirs {K : Bytes → Prop} (h : Asked cfg K w) {path : Bytes}
    (hK : ∀ q, K q → path.length < q.length) :
    wp (makedirs cfg path)
      (fun _ w' => w'.store = w.store.makedirs path ∧ Asked cfg K w' ∧ w'.written = w.written ∧
        Beside w w')
      (fun _ w' => Dug (path.length + 1) w w') w := by
  rw [makedirs, wp_bind]
  refine wp_mono (wp_exists h path) ?_ fun _ _ ho => ho.dug _
  rintro found w₁ ⟨hans, h₁, ho⟩
  replace h₁ := h₁.mono fun _ => And.left
  rw [wp_ite]
  split_ifs with hfound
  · refine ⟨?_, h₁, ho.written, ho.beside⟩
    rw [ho.store, Store.makedirs, if_pos (hans.1 hfound)]
  have hshort : ∀ {pre post : List Bytes} {d : Bytes}, parents path = pre ++ d :: post →
      d.length < path.length := fun hsplit => length_of_mem_parents (by rw [hsplit]; simp)
  -- wherever the loop stops, some of the parents have been made
  have hstop : ∀ {ds : List Bytes} {w₂ w₃ : World}, (∀ d ∈ ds, d ∈ parents path) →
      w₂.store = ds.foldl Store.addDir w.store → w₂.written = w.written → Beside w w₂ →
      OnlyAsked w₂ w₃ → Dug (path.length + 1) w w₃ := by
    intro ds w₂ w₃ hds hstore hwritten hbeside ho'
    refine ⟨?_, ho'.written.trans hwritten, hbeside.trans ho'.beside⟩
    rw [ho'.store, hstore]
    exact deepened_foldl _ fun d hd => Nat.lt_succ_of_lt (length_of_mem_parents (hds d hd))
  rw [wp_bind]
  -- the parents are made from the shortest on
  refine wp_mono (wp_forM (I := fun pre w' => w'.store = pre.foldl Store.addDir w.store ∧
    Asked cfg K w' ∧ w'.written = w.written ∧ Beside w w') ?_ ⟨ho.store, h₁, ho.written, ho.beside⟩)
    ?_ fun _ _ hd => hd
  · rintro pre d post w₂ hsplit ⟨hstore, h₂, hwritten, hbeside⟩
    refine wp_mono (wp_makedir h₂ fun q hq => (hshort hsplit).trans (hK q hq)) ?_ ?_
    · rintro _ w₃ ⟨hstore', h₃, hwritten', hbeside'⟩
      refine ⟨?_, h₃, hwritten'.trans hwritten, hbeside.trans hbeside'⟩
      rw [hstore', hstore, List.foldl_append]
      rfl
    · intro _ w₃ ho'
      exact hstop (fun d' hd' => by rw [hsplit]; simp [hd']) hstore hwritten hbeside ho'
  · rintro _ w₂ ⟨hstore, h₂, hwritten, hbeside⟩
    refine wp_mono (wp_mkdir cfg path w₂) ?_ ?_
    · rintro _ w₃ ⟨hnone, rfl⟩
      -- the parents are shorter than the path, so that it was not there before either
      have habsent : w.store.lookup path = none := by
        have hdeep : Deepened path.length w.store ((parents path).foldl Store.addDir w.store) :=
          deepened_foldl w.store fun d hd => length_of_mem_parents hd
        rw [← hdeep.lookup (Nat.le_refl _), ← hstore]
        exact hnone
      have hne : ∀ q, K q → q ≠ path := by
        rintro q hq rfl
        exact absurd (hK q hq) (Nat.lt_irrefl _)
      refine ⟨?_, h₂.congr rfl rfl fun q hq => ?_, hwritten, hbeside.trans ⟨rfl, rfl, rfl, rfl, rfl⟩⟩
      · rw [Store.makedirs, habsent, if_neg (by simp), List.foldl_append, ← hstore]
        simp only [List.foldl_cons, List.foldl_nil, Store.addDir, hnone]
        rfl
      · exact congrArg Option.isSome (AList.lookup_insert_ne (hne q hq))
    · rintro _ w₃ rfl
      exact hstop (fun d hd => hd) hstore hwritten hbeside (.asking w₂ _ _ _)

/-! ### Objects -/

/-- The directory of an object. -/
abbrev objectDir (repo : Bytes) (h : Hash) : Bytes :=
  (dirname (objectPath repo h)).getD (objectPath repo h)

/-- The path that an object is written to. -/
abbrev tmpPath (repo : Bytes) (h : Hash) : Bytes := objectPath repo h ++ lit ".tmp"

theorem objectDir_length (repo : Bytes) (h : Hash) : (objectDir repo h).length < repo.length + 52 := by
  obtain ⟨d, hd, -⟩ := dirname_objectPath repo h
  rw [objectDir, hd, ← objectPath_length repo h]
  exact length_of_dirname hd

theorem tmpPath_length (repo : Bytes) (h : Hash) : (tmpPath repo h).length = repo.length + 56 := by
  rw [tmpPath, List.length_append, objectPath_length]
  rfl

/-- If the directory is there, it is not made. -/
theorem makedirs_of_hasParent {s : Store} {repo : Bytes} {h : Hash}
    (hp : s.hasParent (tmpPath repo h) = true) : s.makedirs (objectDir repo h) = s := by
  obtain ⟨d, hd, hne⟩ := dirname_objectPath repo h
  rw [hasParent_tmp, Store.hasParent, hd] at hp
  simp only [hne, decide_false, Bool.false_or, decide_eq_true_eq] at hp
  rw [objectDir, hd, Store.makedirs, Option.getD_some, if_pos (by simp [hp])]

theorem deepened_objectDir (s : Store) (repo : Bytes) (h : Hash) :
    Deepened (repo.length + 52) s (s.makedirs (objectDir repo h)) :=
  (deepened_makedirs s _).mono (objectDir_length repo h)

/-- The temporary file has been opened. -/
structure Opened (cfg : Config) (K : Bytes → Prop) (h : Hash) (w w' : World) : Prop where
  store : w'.store = (w.store.makedirs (objectDir cfg.repo h)).insert (tmpPath cfg.repo h) (.file [])
  asked : Asked cfg K w'
  written : w'.written = tmpPath cfg.repo h :: w.written
  beside : Beside w w'

theorem Asked.insert_tmp {K : Bytes → Prop} (ha : Asked cfg K w)
    (hK : ∀ q, K q → q.length = cfg.repo.length + 52) (h : Hash) (node : Node) (n : Nat)
    (written : List Bytes) :
    Asked cfg K { w with
      clock := n, store := w.store.insert (tmpPath cfg.repo h) node, written } := by
  refine ha.congr rfl rfl fun q hq => ?_
  have hne : q ≠ tmpPath cfg.repo h := by
    rintro rfl
    have := hK _ hq
    rw [tmpPath_length] at this
    omega
  exact congrArg Option.isSome (AList.lookup_insert_ne hne)

theorem wp_openObject {K : Bytes → Prop} (ha : Asked cfg K w)
    (hK : ∀ q, K q → q.length = cfg.repo.length + 52) (h : Hash) :
    wp (openObject cfg (objectPath cfg.repo h))
      (fun o w' => o = ⟨tmpPath cfg.repo h, false, []⟩ ∧ Opened cfg K h w w')
      (fun _ w' => Dug (cfg.repo.length + 52) w w') w := by
  rw [openObject, wp_tryCatch]
  refine wp_mono (wp_openWrite cfg _ w) ?_ ?_
  · rintro o w₁ ⟨hparent, rfl, rfl⟩
    refine ⟨rfl, ?_, ha.insert_tmp hK h _ _ _, rfl, rfl, rfl, rfl, rfl, rfl⟩
    rw [makedirs_of_hasParent hparent]
  -- the open has failed; the directories are made if that is why
  rintro stop w₁ rfl
  have hasked : OnlyAsked w { w with clock := w.clock + 1 } := .asking w _ _ _
  have ha₁ : Asked cfg K { w with clock := w.clock + 1 } := ha.congr rfl rfl fun _ _ => rfl
  split
  · rw [wp_ite]
    split_ifs
    · rw [wp_bind]
      have hlong : ∀ q, K q → (objectDir cfg.repo h).length < q.length := fun q hq => by
        rw [hK q hq]
        exact objectDir_length _ _
      refine wp_mono (wp_makedirs ha₁ hlong) ?_ ?_
      · rintro _ w₂ ⟨hstore, h₂, hwritten, hbeside⟩
        have hstore : w₂.store = w.store.makedirs (objectDir cfg.repo h) := hstore
        refine wp_mono (wp_openWrite cfg _ w₂) ?_ ?_
        · rintro o w₃ ⟨-, rfl, rfl⟩
          refine ⟨rfl, by rw [hstore], h₂.insert_tmp hK h _ _ _, ?_, ?_⟩
          · exact congrArg _ hwritten
          · exact (hasked.beside.trans hbeside).trans ⟨rfl, rfl, rfl, rfl, rfl⟩
        · rintro _ w₃ rfl
          refine ⟨?_, hwritten, (hasked.beside.trans hbeside).trans ⟨rfl, rfl, rfl, rfl, rfl⟩⟩
          rw [show (_ : World).store = _ from hstore]
          exact deepened_objectDir _ _ _
      · intro _ w₂ hd
        exact ⟨hd.store.mono (objectDir_length _ _), hd.written, hasked.beside.trans hd.beside⟩
    · exact hasked.dug _
  · exact hasked.dug _

/-- A file of the host was read, at some time, and had these bytes. -/
def WasRead (cfg : Config) (path data : Bytes) (fault : Option Errno) : Prop :=
  ∃ n, (cfg.env n).host.data path = .ok (data, fault)

/-- The object has been copied in, and its directory made. -/
structure Copied (repo : Bytes) (h : Hash) (data : Bytes) (s s' : Store) : Prop where
  object : s'.lookup (objectPath repo h) = some (.file data)
  tmp : s'.lookup (tmpPath repo h) = none
  others : ∀ q, q ≠ objectPath repo h → q ≠ tmpPath repo h →
    s'.lookup q = (s.makedirs (objectDir repo h)).lookup q

/-- A copy that was stopped on the way. -/
structure Scratched (repo : Bytes) (h : Hash) (w w' : World) : Prop where
  store : ∀ q ≠ tmpPath repo h, w'.store.lookup q = w.store.lookup q ∨
    q.length < repo.length + 52 ∧ w.store.lookup q = none ∧ w'.store.lookup q = some .dir
  written : ∀ q ∈ w'.written, q ∈ w.written ∨ q = tmpPath repo h
  beside : Beside w w'

theorem Dug.scratched {repo : Bytes} (hd : Dug (repo.length + 52) w w') (h : Hash) :
    Scratched repo h w w' := ⟨fun q _ => hd.store q, fun _ hq => .inl (hd.written ▸ hq), hd.beside⟩

/-- Writing to the temporary file only scratches. -/
theorem Opened.scratched {K : Bytes → Prop} {h : Hash} {w₁ w₂ : World} (ho : Opened cfg K h w w₁)
    (hputs : Puts (tmpPath cfg.repo h) w₁ w₂) : Scratched cfg.repo h w w₂ := by
  refine ⟨fun q hq => ?_, fun q hq => ?_, ho.beside.trans hputs.beside⟩
  · rw [hputs.others q hq, ho.store, AList.lookup_insert_ne hq]
    exact deepened_objectDir _ _ _ q
  · rw [hputs.books.written, ho.written, List.mem_cons] at hq
    exact hq.symm

/-- What is left of an object that has been copied. -/
structure CopiedIn (cfg : Config) (K : Bytes → Prop) (hb : Hashable) (w w' : World) : Prop where
  copied : ∃ data, WasRead cfg hb.path data none ∧
    (cfg.recheckhash = true → cfg.sha1 data = hb.hash) ∧ Copied cfg.repo hb.hash data w.store w'.store
  asked : Asked cfg K w'
  written : w'.written = objectPath cfg.repo hb.hash :: tmpPath cfg.repo hb.hash :: w.written
  beside : Beside w w'

theorem wp_copyFile {K : Bytes → Prop} {hb : Hashable} (ha : Asked cfg K w)
    (hK : ∀ q, K q → q.length = cfg.repo.length + 52 ∧ q ≠ objectPath cfg.repo hb.hash)
    (hhp : hb.hp = objectPath cfg.repo hb.hash) :
    wp (copyFile cfg hb) (fun _ w' => CopiedIn cfg K hb w w')
      (fun _ w' => Scratched cfg.repo hb.hash w w') w := by
  have hasked : ∀ n, OnlyAsked w { w with clock := n } := fun n => .asking w n _ _
  rw [copyFile, hhp, wp_bind, wp_tick]
  split
  · exact ((hasked _).dug _).scratched _
  split
  · exact ((hasked _).dug _).scratched _
  rename_i data fault hdata
  have hread : WasRead cfg hb.path data fault := ⟨w.clock, hdata⟩
  have ha₁ : Asked cfg K { w with clock := w.clock + 1 } := ha.congr rfl rfl fun _ _ => rfl
  rw [wp_bind]
  refine wp_mono (wp_openObject ha₁ (fun q hq => (hK q hq).1) hb.hash) ?_ fun _ _ hd =>
    (⟨hd.store, hd.written, (hasked _).beside.trans hd.beside⟩ : Dug _ w _).scratched _
  rintro o w₁ ⟨rfl, ho⟩
  rw [wp_bind, wp_access, wp_bind]
  replace ho : Opened cfg K hb.hash w { w₁ with accesses := .read hb.path :: w₁.accesses } :=
    ⟨ho.store, ho.asked.congr rfl rfl fun _ _ => rfl, ho.written,
      ((hasked _).beside.trans ho.beside).trans ⟨rfl, rfl, rfl, rfl, rfl⟩⟩
  have hholds : Holds ⟨tmpPath cfg.repo hb.hash, false, []⟩ []
      { w₁ with accesses := .read hb.path :: w₁.accesses } :=
    .opened (by rw [ho.store]; exact AList.lookup_insert _)
  refine wp_mono ((backupWriter cfg).wp_put data hholds) ?_ fun _ _ hcut => ho.scratched hcut.1
  rintro o w₂ ⟨hputs, hpath, hholds⟩
  rw [List.nil_append] at hholds
  split
  · exact ho.scratched hputs
  rw [wp_ite]
  split_ifs with hrecheck
  · exact ho.scratched hputs
  -- the hash is right, and the object gets its name
  rw [wp_bind]
  refine wp_mono ((backupWriter cfg).wp_flush hholds) ?_ fun _ _ hcut =>
    ho.scratched (hputs.trans (by rw [← hpath]; exact hcut.1))
  rintro o' w₃ ⟨hputs', -, hfile⟩
  rw [hpath] at hputs' hfile
  have hputs := hputs.trans hputs'
  refine wp_mono (wp_rename cfg _ _ w₃) ?_ ?_
  · rintro _ w₄ ⟨data', hdata', rfl⟩
    obtain rfl : data = data' := by
      rw [hfile] at hdata'
      simpa using hdata'
    have htmp : tmpPath cfg.repo hb.hash ≠ objectPath cfg.repo hb.hash :=
      tmp_ne_objectPath cfg.repo hb.hash hb.hash
    refine ⟨⟨data, hread, fun hre => by simpa [hre] using hrecheck, ⟨?_, ?_, ?_⟩⟩, ?_, ?_, ?_⟩
    · exact AList.lookup_insert _
    · exact (AList.lookup_insert_ne htmp).trans (AList.lookup_erase _ _)
    · intro q hq hqtmp
      refine (AList.lookup_insert_ne hq).trans ?_
      rw [AList.lookup_erase_ne hqtmp, hputs.others q hqtmp, ho.store, AList.lookup_insert_ne hqtmp]
    · refine ho.asked.congr ?_ ?_ fun q hq => ?_
      · exact hputs.books.existence
      · exact hputs.books.existence_inflight
      · have hqtmp : q ≠ tmpPath cfg.repo hb.hash := by
          rintro rfl
          have := (hK _ hq).1
          rw [tmpPath_length] at this
          omega
        refine congrArg Option.isSome ((AList.lookup_insert_ne (hK q hq).2).trans ?_)
        rw [AList.lookup_erase_ne hqtmp, hputs.others q hqtmp]
    · exact congrArg _ (hputs.books.written.trans ho.written)
    · exact (ho.beside.trans hputs.beside).trans ⟨rfl, rfl, rfl, rfl, rfl⟩
  · rintro _ w₄ rfl
    exact ho.scratched (hputs.trans (.clock _ w₃ _))

/-- What `addHashable` does. -/
inductive Added (cfg : Config) (K : Bytes → Prop) (hb : Hashable) (w w' : World) : Prop
  /-- The object was there. -/
  | found (hthere : (w.store.lookup (objectPath cfg.repo hb.hash)).isSome)
      (hasked : Asked cfg K w') (honly : OnlyAsked w w')
  /-- The object was not found, and has been copied in. -/
  | copied (hnone : Faultless cfg → w.store.lookup (objectPath cfg.repo hb.hash) = none)
      (hcopied : CopiedIn cfg K hb w w')

theorem wp_addHashable {K : Bytes → Prop} {hb : Hashable} (ha : Asked cfg K w)
    (hK : ∀ q, K q → q.length = cfg.repo.length + 52)
    (hhp : hb.hp = objectPath cfg.repo hb.hash) :
    wp (addHashable cfg hb)
      (fun _ w' => Added cfg (fun q => K q ∧ q ≠ objectPath cfg.repo hb.hash) hb w w')
      (fun _ w' => Scratched cfg.repo hb.hash w w') w := by
  rw [addHashable, hhp, wp_bind]
  refine wp_mono (wp_exists ha _) ?_ fun _ _ ho => (ho.dug _).scratched _
  rintro found w₁ ⟨hans, h₁, ho⟩
  rw [wp_ite]
  split_ifs with hfound
  · exact .found (hans.1 hfound) h₁ ho
  · refine wp_mono (wp_copyFile h₁ (fun q hq => ⟨hK q hq.1, hq.2⟩) hhp) ?_ ?_
    · rintro _ w₂ ⟨hcopied, h₂, hwritten, hbeside⟩
      rw [ho.store] at hcopied
      refine .copied (fun hfault => ?_) ⟨hcopied, h₂, ?_, ho.beside.trans hbeside⟩
      · exact Option.not_isSome_iff_eq_none.mp fun hs => hfound (hans.2 hfault hs)
      · rw [hwritten, ho.written]
    · rintro _ w₂ ⟨hstore, hwritten, hbeside⟩
      rw [ho.store, ho.written] at *
      exact ⟨hstore, hwritten, ho.beside.trans hbeside⟩

end Hbackup
