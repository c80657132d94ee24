import Hbackup.Equiv.Backup

/-!
# Directories

The loop over the names of a directory, the copying at its end, and the recursion into the
subdirectories: the invariant of `Equiv/Backup` from the opened index to the end marker
(`At.wp_backup_dir`).
-/

namespace Hbackup

open ProgramLogic Separated

variable {cfg : Config} {hs : Option (List (Bytes × Hint))}
  {I : List Hashable → List Hashable → World → Prop} {J : World → Prop}
  {done queue : List Hashable} {hint : Bytes} {es : List Entry} {frag : Bytes} {o : OFile}
  {w w' : World}

/-! ### One directory -/

theorem At.wp_statFiles (hkeeps : KeepsRepo cfg hs I J) (dir : Bytes) (c : List Bytes)
    (h : At cfg hs I done queue hint es frag o w) :
    wp (statFiles cfg dir c)
      (fun files w' => Stats cfg dir c files ∧ At cfg hs I done queue hint es frag o w')
      (fun _ => Stopped cfg J) w := by
  induction c generalizing w with
  | nil => exact ⟨.nil, h⟩
  | cons name c ih =>
    -- what is said of the rest of the names, whatever has become of the first one
    have hrest : ∀ {w' : World} {Q : List (Bytes × Stat) → World → Prop},
        At cfg hs I done queue hint es frag o w' →
        (∀ files w'', Stats cfg dir c files → At cfg hs I done queue hint es frag o w'' →
          Q files w'') → wp (statFiles cfg dir c) Q (fun _ => Stopped cfg J) w' := fun h' hQ =>
      wp_mono (ih h') (fun files w'' hq => hQ files w'' hq.1 hq.2) fun _ _ h => h
    rw [statFiles, wp_ite]
    split
    · rename_i hname
      exact hrest h fun files w' hs h' =>
        ⟨.skip (hname.elim .inl fun hn => .inr (.inl hn)) hs, h'⟩
    rename_i hname
    rw [wp_ite]
    split
    · rename_i hexcluded
      exact hrest h fun files w' hs h' => ⟨.skip (.inr (.inr hexcluded)) hs, h'⟩
    rename_i hexcluded
    refine h.wp_tick hkeeps fun n w₁ h₁ => ?_
    split
    · rename_i errno hstat
      rw [wp_ite]
      split
      · rename_i hgone
        rw [wp_bind, wp_warning]
        exact hrest (h₁.warnings hkeeps _) fun files w' hs h' =>
          ⟨.gone hname hexcluded (hgone ▸ hstat) hs, h'⟩
      · exact h₁.stopped hkeeps
    · rename_i sb hstat
      rw [wp_bind, wp_access]
      replace h₁ := h₁.accesses hkeeps (.lstat (fullname cfg.root (localname dir name)) sb :: w₁.accesses)
      rw [wp_ite]
      split
      · rename_i hknown
        rw [wp_bind]
        exact hrest h₁ fun files w' hs h' => ⟨.cons hname hexcluded hstat hknown hs, h'⟩
      · rename_i hknown
        rw [wp_bind, wp_warning]
        exact hrest (h₁.warnings hkeeps _) fun files w' hs h' =>
          ⟨.unknown hname hexcluded hstat (by simpa using hknown) hs, h'⟩

theorem Stats.known {dir : Bytes} {c : List Bytes} {files : List (Bytes × Stat)}
    (h : Stats cfg dir c files) : ∀ f ∈ files, f.2.known = true := by
  induction h with
  | nil => simp
  | skip _ _ ih => exact ih
  | gone _ _ _ _ ih => exact ih
  | unknown _ _ _ _ _ ih => exact ih
  | cons _ _ _ hknown _ ih =>
    intro f hf
    rcases List.mem_cons.mp hf with rfl | hf
    · exact hknown
    · exact ih f hf

/-- What was assigned last was assigned. -/
theorem statOf_mem {files : List (Bytes × Stat)} {name : Bytes} (h : name ∈ files.map Prod.fst) :
    (name, statOf files name) ∈ files := by
  have hsome : ∃ sb, files.reverse.lookup name = some sb := by
    cases hl : files.reverse.lookup name with
    | some sb => exact ⟨sb, rfl⟩
    | none =>
      obtain ⟨f, hf, rfl⟩ := List.mem_map.mp h
      have := List.lookup_eq_none_iff.mp hl f (List.mem_reverse.mpr hf)
      simp at this
  obtain ⟨sb, hsb⟩ := hsome
  rw [statOf, hsb, Option.getD_some]
  obtain ⟨l₁, l₂, hl, -⟩ := List.lookup_eq_some_iff.mp hsb
  rw [← List.mem_reverse, hl]
  simp

theorem mem_sortedNames {files : List (Bytes × Stat)} {name : Bytes} :
    name ∈ sortedNames files ↔ name ∈ files.map Prod.fst :=
  (List.perm_insertionSort _ _).mem_iff

/-- The loop over the names. -/
theorem At.wp_lines (hkeeps : KeepsRepo cfg hs I J) (ho : Outside cfg) {dir : Bytes}
    {files : List (Bytes × Stat)} (names : List Bytes)
    (hknown : ∀ name ∈ names, (statOf files name).known = true) {p : Progress}
    (h : At cfg hs I done p.hashables (hintText es) es [] p.index w) :
    wp (names.foldlM (backupFile cfg dir files) p)
      (fun p' w' => ∃ new ds, Lines cfg hs dir files p.first names new ds ∧
        p'.dirs = p.dirs ++ ds ∧ done ++ p'.hashables = queueOf cfg (done ++ p.hashables) new ∧
        At cfg hs I done p'.hashables (hintText (es ++ new)) (es ++ new) [] p'.index w')
      (fun _ => Stopped cfg J) w := by
  induction names generalizing p es w with
  | nil =>
    refine ⟨[], [], .nil, (List.append_nil _).symm, rfl, ?_⟩
    rw [List.append_nil]
    exact h
  | cons name names ih =>
    rw [List.foldlM_cons, wp_bind]
    refine wp_mono (h.wp_backupFile hkeeps ho (hknown name List.mem_cons_self)) ?_ fun _ _ h => h
    rintro p₁ w₁ ⟨e, entered, hturn⟩
    have hnow := hturn.now
    rw [← hturn.hashables] at hnow
    refine wp_mono (ih (fun n hn => hknown n (List.mem_cons_of_mem name hn)) hnow) ?_
      fun _ _ h => h
    rintro p₂ w₂ ⟨new, ds, hlines, hdirs, hqueue, h₂⟩
    refine ⟨e :: new, entered ++ ds, .cons hturn.entry hturn.enters ?_, ?_, ?_, ?_⟩
    · rwa [hturn.first] at hlines
    · rw [hdirs, hturn.dirs, List.append_assoc]
    · rw [hqueue, hturn.hashables, ← List.append_assoc]
      rfl
    · rw [← List.append_cons] at h₂
      exact h₂

/-! ### Copying -/

/-- What there was, apart from the object itself, stays. -/
theorem Copied.lookup_of_some {repo data q : Bytes} {hash : Hash} {s s' : Store} {node : Node}
    (h : Copied repo hash data s s') (hq : ¬ Under (objectsDir repo) q)
    (hs : s.lookup q = some node) : s'.lookup q = some node := by
  rw [h.others q (fun e => hq (e ▸ under_objectsDir repo hash))
    fun e => hq (e ▸ under_tmpPath repo hash)]
  rcases deepened_objectDir s repo hash q with hsame | ⟨-, hnone, -⟩
  · exact hsame.trans hs
  · rw [hs] at hnone
    cases hnone

theorem Scratched.lookup_of_some {repo q : Bytes} {hash : Hash} {node : Node}
    (h : Scratched repo hash w w') (hq : ¬ Under (objectsDir repo) q)
    (hs : w.store.lookup q = some node) : w'.store.lookup q = some node := by
  rcases h.store q fun e => hq (e ▸ under_tmpPath repo hash) with hsame | ⟨-, hnone, -⟩
  · exact hsame.trans hs
  · rw [hs] at hnone
    cases hnone

theorem At.wp_addHashable (hkeeps : KeepsRepo cfg hs I J) (ho : Outside cfg) {hb : Hashable}
    (h : At cfg hs I done (hb :: queue) hint es frag o w) :
    wp (addHashable cfg hb) (fun _ w' => At cfg hs I (done ++ [hb]) queue hint es frag o w')
      (fun _ => Stopped cfg J) w := by
  have hlen : ∀ q, (∃ hb' ∈ hb :: queue, q = hb'.hp) → q.length = cfg.repo.length + 52 := by
    rintro q ⟨hb', hm, rfl⟩
    rw [h.hps hb' hm, objectPath_length]
  have hhp := h.hps hb List.mem_cons_self
  obtain ⟨d, hd, hpre⟩ := h.holds.stored_isPrefix
  rw [h.path] at hd
  have hinrepo : done ++ hb :: queue = done ++ [hb] ++ queue := List.append_cons _ _ _
  -- of what is still to be copied, this object is not asked for any more
  have hqueue : ∀ q, (∃ hb' ∈ hb :: queue, q = hb'.hp) ∧ q ≠ objectPath cfg.repo hb.hash →
      ∃ hb' ∈ queue, q = hb'.hp := by
    rintro q ⟨⟨hb', hm, rfl⟩, hne⟩
    rcases List.mem_cons.mp hm with rfl | hm
    · exact absurd hhp hne
    · exact ⟨hb', hm, rfl⟩
  refine wp_mono (Hbackup.wp_addHashable h.asked hlen hhp) ?_ ?_
  · intro _ w' hadd
    have hrepo := hkeeps.add h.repo hadd
    have hps : ∀ hb' ∈ queue, hb'.hp = objectPath cfg.repo hb'.hash := fun hb' hm =>
      h.hps hb' (List.mem_cons_of_mem hb hm)
    -- the index is where it was, whether the object was found or copied
    obtain ⟨hasked, hbeside, hindex, hwritten⟩ : Asked cfg (fun q => ∃ hb' ∈ queue, q = hb'.hp) w' ∧
        Beside w w' ∧ w'.store.lookup (indexPath cfg) = w.store.lookup (indexPath cfg) ∧
        (cfg.indexfile ∈ w'.written → cfg.indexfile ∈ w.written) := by
      cases hadd with
      | found hthere hasked honly =>
        exact ⟨hasked.mono hqueue, honly.beside, by rw [honly.store], fun hm => honly.written ▸ hm⟩
      | copied hnone hin =>
        obtain ⟨data, -, -, hcopied⟩ := hin.copied
        refine ⟨hin.asked.mono hqueue, hin.beside, ?_, fun hm => ?_⟩
        · rw [hd, hcopied.lookup_of_some ho.indexPath hd]
        · rw [hin.written, List.mem_cons, List.mem_cons] at hm
          rcases hm with e | e | hm
          · exact absurd (e ▸ under_objectsDir _ _) ho.indexfile
          · exact absurd (e ▸ under_tmpPath _ _) ho.indexfile
          · exact hm
    exact {
      repo := hrepo
      asked := hasked
      hps := hps
      inrepo := by rw [hbeside.inrepo, h.inrepo, hinrepo]
      hidden := fun hm => h.hidden (hwritten hm)
      names := by rw [hbeside.names]; exact h.names
      hints := hbeside.hints.trans h.hints
      newhints := h.newhints.congr hbeside.hintFiles
      path := h.path
      holds := ⟨by rw [h.path, hindex, ← h.path]; exact h.holds.stored, h.holds.started⟩
      begun := h.begun }
  -- the run has stopped while copying
  · intro _ w' hs
    refine stopped_of_isPrefix (hkeeps.scratch h.repo hs) (fun hm => h.hidden ?_) h.begun
      ⟨d, hs.lookup_of_some ho.indexPath hd, hpre⟩
    rcases hs.written _ hm with hm | e
    · exact hm
    · exact absurd (e ▸ under_tmpPath _ _) ho.indexfile

/-- All that is queued is copied. -/
theorem At.wp_addHashables (hkeeps : KeepsRepo cfg hs I J) (ho : Outside cfg)
    (h : At cfg hs I done queue hint es frag o w) :
    wp (queue.forM (addHashable cfg))
      (fun _ w' => At cfg hs I (done ++ queue) [] hint es frag o w') (fun _ => Stopped cfg J) w := by
  induction queue generalizing done w with
  | nil =>
    rw [List.append_nil]
    exact h
  | cons hb queue ih =>
    change wp (addHashable cfg hb >>= fun _ => queue.forM (addHashable cfg)) _ _ w
    rw [wp_bind]
    refine wp_mono (h.wp_addHashable hkeeps ho) ?_ fun _ _ h => h
    intro _ w₁ h₁
    rw [List.append_cons]
    exact ih h₁

/-! ### The recursion -/

/-- A moment between two directories. -/
def Between (cfg : Config) (hs : Option (List (Bytes × Hint)))
    (I : List Hashable → List Hashable → World → Prop) (es : List Entry) (o : OFile) (w : World) :
    Prop := At cfg hs I (queueOf cfg [] es) [] (hintText es) es [] o w

theorem Between.wp_backupFiles (hkeeps : KeepsRepo cfg hs I J) (ho : Outside cfg)
    (h : Between cfg hs I es o w) (dir : Bytes) :
    wp (backupFiles cfg dir o)
      (fun p w' => ∃ own, Own cfg hs dir own p.dirs ∧ Between cfg hs I (es ++ own) p.index w')
      (fun _ => Stopped cfg J) w := by
  rw [backupFiles, hostContents, bind_assoc]
  refine h.wp_tick hkeeps fun n w₁ h₁ => ?_
  rw [wp_bind]
  split
  · exact h₁.stopped hkeeps
  rename_i c hc
  rw [wp_pure, wp_bind]
  refine wp_mono (h₁.wp_statFiles hkeeps dir c) ?_ fun _ _ h => h
  rintro files w₂ ⟨hstats, h₂⟩
  have hknown : ∀ name ∈ sortedNames files, (statOf files name).known = true := fun name hm =>
    hstats.known _ (statOf_mem (mem_sortedNames.mp hm))
  rw [wp_bind]
  refine wp_mono (At.wp_lines hkeeps ho (p := { index := o }) (sortedNames files) hknown h₂) ?_
    fun _ _ h => h
  rintro p w₃ ⟨own, ds, hlines, hdirs, hqueue, h₃⟩
  rw [wp_bind]
  refine wp_mono (h₃.wp_addHashables hkeeps ho) ?_ fun _ _ h => h
  intro _ w₄ h₄
  refine ⟨own, ⟨n, c, files, hc, hstats, ?_⟩, ?_⟩
  · rw [hdirs]
    exact hlines
  · rw [hqueue, List.append_nil, ← queueOf_append] at h₄
    exact h₄

/-- **A directory, and all below it.** -/
theorem Between.wp_backup_dir (hkeeps : KeepsRepo cfg hs I J) (ho : Outside cfg) (depth : Nat)
    (dir : Bytes) (h : Between cfg hs I es o w) :
    wp (backup_dir cfg depth o dir)
      (fun o' w' => ∃ new, Walk cfg hs depth dir new ∧ Between cfg hs I (es ++ new) o' w')
      (fun _ => Stopped cfg J) w := by
  induction depth generalizing es o w dir with
  | zero => exact h.stopped hkeeps
  | succ depth ih =>
    rw [backup_dir, wp_bind]
    refine wp_mono (h.wp_backupFiles hkeeps ho dir) ?_ fun _ _ h => h
    rintro ⟨index, first, hashables, dirs⟩ w₁ ⟨own, hown, h₁⟩
    -- the subdirectories, one after the other
    have hsubs : ∀ (ds : List Bytes) {es : List Entry} {o : OFile} {w : World},
        Between cfg hs I es o w → wp (ds.foldlM (backup_dir cfg depth) o)
          (fun o' w' => ∃ subs, List.Forall₂ (Walk cfg hs depth) ds subs ∧
            Between cfg hs I (es ++ subs.flatten) o' w') (fun _ => Stopped cfg J) w := by
      intro ds
      induction ds with
      | nil =>
        intro es o w h
        refine ⟨[], .nil, ?_⟩
        rw [List.flatten_nil, List.append_nil]
        exact h
      | cons d ds ihds =>
        intro es o w h
        rw [List.foldlM_cons, wp_bind]
        refine wp_mono (ih d h) ?_ fun _ _ h => h
        rintro o₁ w₁ ⟨new, hwalk, h₁⟩
        refine wp_mono (ihds h₁) ?_ fun _ _ h => h
        rintro o₂ w₂ ⟨subs, hwalks, h₂⟩
        refine ⟨new :: subs, .cons hwalk hwalks, ?_⟩
        rw [List.flatten_cons, ← List.append_assoc]
        exact h₂
    refine wp_mono (hsubs dirs h₁) ?_ fun _ _ h => h
    rintro o₂ w₂ ⟨subs, hwalks, h₂⟩
    refine ⟨own ++ subs.flatten, ⟨own, dirs, subs, hown, hwalks, rfl⟩, ?_⟩
    rw [← List.append_assoc]
    exact h₂

end Hbackup
