import Hbackup.Equiv.Directories
import Hbackup.Equiv.HintFile

/-!
# Access times

Reading a file updates its access time (`AtimeFs`), and `--preserve-atime` sets it back to what
`lstat` had said.  That undoes the reads of the loop over a directory, but a file whose contents are
copied into the repository is read once more afterwards.
-/

namespace Hbackup

open ProgramLogic

/-- A filesystem on which reading a file updates its access time. -/
structure AtimeFs (φ : Type) where
  /-- The file at a path. -/
  file : Bytes → φ
  /-- The access time of a file that is read when `n` calls have been made. -/
  now : Nat → Int64
  /-- The access times before the run. -/
  before : φ → Int64

namespace AtimeFs

variable {φ : Type} [DecidableEq φ] (fs : AtimeFs φ)

/-- The access times after the calls in `log`. -/
def atime : List Access → φ → Int64
  | [] => fs.before
  | .lstat _ _ :: log => atime log
  | .read path :: log => Function.update (atime log) (fs.file path) (fs.now log.length)
  | .utimes path t _ :: log => Function.update (atime log) (fs.file path) t

/-- `lstat` gives the access times that files have. -/
def Truthful : List Access → Prop
  | [] => True
  | .lstat path sb :: log =>
    (sb.is S_IFREG → sb.st_atime = fs.atime log (fs.file path)) ∧ Truthful log
  | _ :: log => Truthful log

/-- The regular files that have been backed up have the access times they had before. -/
def Preserves (log : List Access) : Prop :=
  ∀ path sb, .lstat path sb ∈ log → sb.is S_IFREG →
    fs.atime log (fs.file path) = fs.before (fs.file path)

variable {fs} {l log : List Access} {path : Bytes} {sb : Stat}

theorem Truthful.of_append (h : fs.Truthful (l ++ log)) : fs.Truthful log := by
  induction l with
  | nil => exact h
  | cons a l ih =>
    cases a with
    | lstat => exact ih h.2
    | read => exact ih h
    | utimes => exact ih h

/-- Looking at files leaves their access times alone. -/
theorem atime_lstats (hl : ∀ a ∈ l, ∃ path sb, a = .lstat path sb) :
    fs.atime (l ++ log) = fs.atime log := by
  induction l with
  | nil => rfl
  | cons a l ih =>
    obtain ⟨path, sb, rfl⟩ := hl a List.mem_cons_self
    exact ih fun a ha => hl a (List.mem_cons_of_mem _ ha)

/-- What is said by one of several `lstat`s in a row is what there was before the first. -/
theorem Truthful.lstat (h : fs.Truthful (l ++ log)) (hl : ∀ a ∈ l, ∃ path sb, a = .lstat path sb)
    (hm : .lstat path sb ∈ l) (htype : sb.is S_IFREG) :
    sb.st_atime = fs.atime log (fs.file path) := by
  induction l with
  | nil => exact absurd hm List.not_mem_nil
  | cons a l ih =>
    have hl' : ∀ a ∈ l, ∃ path sb, a = .lstat path sb := fun a ha => hl a (List.mem_cons_of_mem _ ha)
    obtain ⟨path', sb', rfl⟩ := hl a List.mem_cons_self
    rcases List.mem_cons.mp hm with heq | hm
    · cases heq
      rw [← atime_lstats hl']
      exact h.1 htype
    · exact ih h.2 hl' hm

theorem atime_reads (hl : ∀ a ∈ l, a = .read path) {f : φ} (hf : f ≠ fs.file path) :
    fs.atime (l ++ log) f = fs.atime log f := by
  induction l with
  | nil => rfl
  | cons a l ih =>
    obtain rfl := hl a List.mem_cons_self
    rw [List.cons_append, atime, Function.update_of_ne hf]
    exact ih fun a ha => hl a (List.mem_cons_of_mem _ ha)

/-- **Setting the access time to what it was undoes the reads before.** -/
theorem atime_reset (hl : ∀ a ∈ l, a = .read path) (m : Int64) :
    fs.atime (.utimes path (fs.atime log (fs.file path)) m :: (l ++ log)) = fs.atime log := by
  funext f
  rw [atime]
  by_cases hf : f = fs.file path
  · subst hf
    exact Function.update_self _ _ _
  · rw [Function.update_of_ne hf]
    exact atime_reads hl hf

end AtimeFs

/-! ### The calls that a run makes -/

/-- The files being backed up have been used in calls `A` only, and no object is written to. -/
structure Logs (cfg : Config) (A : Access → Prop) (w w' : World) : Prop where
  accesses : ∃ l, (∀ a ∈ l, A a) ∧ w'.accesses = l ++ w.accesses
  objects : ∀ h, objectPath cfg.repo h ∈ w'.written ↔ objectPath cfg.repo h ∈ w.written

variable {cfg : Config} {A : Access → Prop} {α : Type}

instance : Std.Refl (Logs cfg A) := ⟨fun _ => ⟨⟨[], by simp, rfl⟩, fun _ => Iff.rfl⟩⟩

instance : IsTrans World (Logs cfg A) where
  trans := by
    rintro w w' w'' ⟨⟨l, hl, hw⟩, hobj⟩ ⟨⟨l', hl', hw'⟩, hobj'⟩
    refine ⟨⟨l' ++ l, fun a ha => ?_, by rw [hw', hw, List.append_assoc]⟩, fun h =>
      (hobj' h).trans (hobj h)⟩
    exact (List.mem_append.mp ha).elim (hl' a) (hl a)

theorem SameTimes.logs {w w' : World} (h : SameTimes cfg w w') : Logs cfg A w w' :=
  ⟨⟨[], by simp, h.accesses⟩, h.objects⟩

theorem logs {m : M α} (h : Frames (SameTimes cfg) m) : Frames (Logs cfg A) m :=
  h.mono fun _ _ ha => ha.logs

theorem logs_access {a : Access} (ha : A a) : Frames (Logs cfg A) (access a) := fun w =>
  ⟨⟨[a], by simpa using ha, rfl⟩, fun _ => Iff.rfl⟩

theorem logs_tick : Frames (Logs cfg A) (tick cfg) := logs (sameTimes aside_tick)

theorem logs_smallFile (path : Bytes) (sb : Stat) :
    Frames (Logs cfg (· = .read path)) (smallFile cfg path sb) := by
  refine logs_tick.bind fun m => ?_
  split
  · exact .throw _
  · refine .bind (.ite (.pure _) (logs_access rfl)) fun _ => .ite (.pure _) ?_
    split <;> exact .throw _

theorem logs_hashOf (path : Bytes) (sb : Stat) :
    Frames (Logs cfg (· = .read path)) (hashOf cfg path sb) := by
  refine .get_bind fun w => ?_
  split
  · exact .pure _
  · refine logs_tick.bind fun m => ?_
    split
    · exact .throw _
    refine .bind (logs_access rfl) fun _ => ?_
    split
    · exact .throw _
    · exact .pure _

/-- The files of a directory have been looked at. -/
theorem wp_statFiles_lstats (dir : Bytes) (c : List Bytes) (w : World) :
    wp (statFiles cfg dir c)
      (fun files w' => w'.written = w.written ∧ ∃ l, (∀ a ∈ l, ∃ path sb, a = .lstat path sb) ∧
        w'.accesses = l ++ w.accesses ∧
        ∀ p ∈ files, .lstat (fullname cfg.root (localname dir p.1)) p.2 ∈ l)
      (fun _ _ => True) w := by
  induction c generalizing w with
  | nil => exact ⟨rfl, [], by simp, rfl, by simp⟩
  | cons name c ih =>
    rw [statFiles, wp_ite]
    split
    · exact ih w
    rw [wp_ite]
    split
    · exact ih w
    rw [wp_bind, wp_tick]
    split
    · trivial
    split
    · rw [wp_ite]
      split
      · rw [wp_bind, wp_warning]
        exact ih _
      · trivial
    rename_i sb hstat
    rw [wp_bind, wp_access]
    -- what the rest of the names add comes on top of this `lstat`
    have hrest : ∀ {files : List (Bytes × Stat)} {w' : World} {l : List Access},
        (∀ a ∈ l, ∃ path sb, a = .lstat path sb) →
        (∀ p ∈ files, Access.lstat (fullname cfg.root (localname dir p.1)) p.2 ∈ l) →
        w'.accesses = l ++ Access.lstat (fullname cfg.root (localname dir name)) sb :: w.accesses →
        ∃ l', (∀ a ∈ l', ∃ path sb, a = Access.lstat path sb) ∧ w'.accesses = l' ++ w.accesses ∧
          ∀ p ∈ (name, sb) :: files,
            Access.lstat (fullname cfg.root (localname dir p.1)) p.2 ∈ l' := by
      intro files w' l hl hfiles hw'
      refine ⟨l ++ [.lstat _ sb], fun a ha => ?_, by rw [hw', List.append_assoc]; rfl, fun p hp => ?_⟩
      · rcases List.mem_append.mp ha with ha | ha
        · exact hl a ha
        · exact ⟨_, _, List.mem_singleton.mp ha⟩
      · rcases List.mem_cons.mp hp with rfl | hp
        · exact List.mem_append_right _ (List.mem_singleton_self _)
        · exact List.mem_append_left _ (hfiles p hp)
    rw [wp_ite]
    split
    · rw [wp_bind]
      refine wp_mono (ih _) ?_ fun _ _ _ => trivial
      rintro files w' ⟨hwritten, l, hl, hw', hfiles⟩
      exact ⟨hwritten, hrest hl hfiles hw'⟩
    · rw [wp_bind, wp_warning]
      refine wp_mono (ih _) ?_ fun _ _ _ => trivial
      rintro files w' ⟨hwritten, l, hl, hw', hfiles⟩
      obtain ⟨l', hl', hw'', hfiles'⟩ := hrest hl hfiles hw'
      exact ⟨hwritten, l', hl', hw'', fun p hp => hfiles' p (List.mem_cons_of_mem _ hp)⟩

/-! ### One turn of the loop -/

/-- What is queued for a file. -/
def QueuedFor (cfg : Config) (path : Bytes) (hb : Hashable) : Prop :=
  hb.path = path ∧ hb.hp = objectPath cfg.repo hb.hash

theorem wp_queueHash_queue (path : Bytes) (h : Hash) (w : World) :
    wp (queueHash cfg path h)
      (fun hbs w' => SameTimes cfg w w' ∧ ∀ hb ∈ hbs, QueuedFor cfg path hb) (fun _ _ => True) w := by
  rw [queueHash, wp_bind, wp_get, wp_ite]
  split
  · exact ⟨Std.Refl.refl w, by simp⟩
  rw [wp_bind]
  refine wp_mono (sameTimes (aside_prefigure_exists _) w) ?_ fun _ _ _ => trivial
  intro _ w' hw'
  rw [wp_bind, wp_modify, wp_pure]
  exact ⟨⟨hw'.accesses, hw'.objects⟩, fun hb hm => by rw [List.mem_singleton.mp hm]; exact ⟨rfl, rfl⟩⟩

/-- Only the file itself is read for its line, and queued. -/
theorem wp_contentsOf_queue (path : Bytes) (sb : Stat) (w : World) :
    wp (contentsOf cfg path sb)
      (fun c w' => Logs cfg (· = .read path) w w' ∧ ∀ hb ∈ c.2, QueuedFor cfg path hb)
      (fun _ _ => True) w := by
  rw [contentsOf, wp_ite]
  split
  · rw [wp_bind]
    refine wp_mono (logs_smallFile path sb w) (fun data w' h => ?_) fun _ _ _ => trivial
    exact ⟨h, by simp⟩
  rw [wp_bind]
  refine wp_mono (logs_hashOf path sb w) (fun h w₁ h₁ => ?_) fun _ _ _ => trivial
  rw [wp_bind]
  refine wp_mono (sameTimes_putHints _ w₁) (fun _ w₂ h₂ => ?_) fun _ _ _ => trivial
  rw [wp_bind]
  refine wp_mono (wp_queueHash_queue path h w₂) ?_ fun _ _ _ => trivial
  rintro hbs w₃ ⟨h₃, hqueued⟩
  exact ⟨IsTrans.trans _ _ _ (IsTrans.trans _ _ _ h₁ h₂.logs) h₃.logs, hqueued⟩

theorem wp_restoreAtime_logs (hatime : cfg.preserve_atime = true) (path : Bytes) (sb : Stat)
    (w : World) :
    wp (restoreAtime cfg path sb)
      (fun _ w' => w'.accesses = .utimes path sb.st_atime sb.st_mtime :: w.accesses ∧
        w'.written = w.written)
      (fun _ _ => True) w := by
  rw [restoreAtime, wp_ite, if_pos hatime, wp_bind, wp_tick]
  split
  · trivial
  split
  · trivial
  · exact ⟨rfl, rfl⟩

/-- What one turn of the loop has done to a file: nothing, or it has been read and its access time
has been set. -/
structure LineMade (cfg : Config) (path : Bytes) (sb : Stat) (p p' : Progress) (w w' : World) :
    Prop where
  accesses : w'.accesses = w.accesses ∨ ∃ l, (∀ a ∈ l, a = .read path) ∧
    w'.accesses = .utimes path sb.st_atime sb.st_mtime :: (l ++ w.accesses)
  objects : ∀ h, objectPath cfg.repo h ∈ w'.written ↔ objectPath cfg.repo h ∈ w.written
  regular : w'.accesses ≠ w.accesses → sb.is S_IFREG
  queued : ∀ hb ∈ p'.hashables, hb ∈ p.hashables ∨ QueuedFor cfg path hb ∧ sb.is S_IFREG

theorem SameTimes.lineMade {path : Bytes} {sb : Stat} {p p' : Progress} {w w' : World}
    (h : SameTimes cfg w w') (hp : p'.hashables = p.hashables) : LineMade cfg path sb p p' w w' :=
  ⟨.inl h.accesses, h.objects, fun hne => absurd h.accesses hne, fun _ hm => .inl (hp ▸ hm)⟩

/-- What is aside comes first. -/
theorem wp_bind_same {α β : Type} {m : M α} {k : α → M β} {Q : β → World → Prop} {w : World}
    (hm : Frames (SameTimes cfg) m)
    (hk : ∀ a w', SameTimes cfg w w' → wp (k a) Q (fun _ _ => True) w') :
    wp (m >>= k) Q (fun _ _ => True) w := by
  rw [wp_bind]
  exact wp_mono (hm w) hk fun _ _ _ => trivial

theorem wp_backupFile_line (hatime : cfg.preserve_atime = true) (dir : Bytes)
    (files : List (Bytes × Stat)) (p : Progress) (name : Bytes) (w : World) :
    wp (backupFile cfg dir files p name)
      (fun p' w' => LineMade cfg (fullname cfg.root (localname dir name)) (statOf files name) p p' w w')
      (fun _ _ => True) w := by
  have hput : ∀ o text, Frames (SameTimes cfg) (putIndex cfg o text) := fun o text =>
    sameTimes (aside_put o text)
  have hid : ∀ table remember getname id,
      Frames (SameTimes cfg) (id2string table remember getname id) := fun _ _ _ _ =>
    sameTimes (aside_id2string cfg _ _ _ _)
  refine wp_bind_same (hid _ _ _ _) fun uid w₁ h₁ => ?_
  refine wp_bind_same (hid _ _ _ _) fun gid w₂ h₂ => ?_
  refine wp_bind_same (hput _ _) fun index w₃ h₃ => ?_
  have h : SameTimes cfg w w₃ := (h₁.trans h₂).trans h₃
  rw [wp_ite]
  split
  · -- a regular file: what is read between is undone at the end
    rename_i htype
    rw [wp_bind]
    refine wp_mono (wp_contentsOf_queue _ _ w₃) ?_ fun _ _ _ => trivial
    rintro ⟨text, hbs⟩ w₄ ⟨⟨⟨l, hl, hw₄⟩, hobj₄⟩, hqueued⟩
    refine wp_bind_same (hput _ _) fun index w₅ h₅ => ?_
    refine wp_bind_same (hput _ _) fun index w₆ h₆ => ?_
    refine wp_bind_same (hput _ _) fun index w₇ h₇ => ?_
    have h' : SameTimes cfg w₄ w₇ := (h₅.trans h₆).trans h₇
    rw [wp_bind]
    refine wp_mono (wp_restoreAtime_logs hatime _ _ w₇) ?_ fun _ _ _ => trivial
    rintro _ w₈ ⟨hw₈, hwritten⟩
    rw [wp_pure]
    refine ⟨.inr ⟨l, hl, ?_⟩, fun hash => ?_, fun _ => htype, fun hb hm => ?_⟩
    · rw [hw₈, h'.accesses, hw₄, h.accesses]
    · rw [hwritten, h'.objects, hobj₄, h.objects]
    · exact (List.mem_append.mp hm).imp id fun hm => ⟨hqueued hb hm, htype⟩
  rw [wp_ite]
  split
  · refine wp_bind_same (hput _ _) fun index w₄ h₄ => ?_
    refine wp_bind_same (sameTimes (aside_entersDir _)) fun enters w₅ h₅ => ?_
    exact ((h.trans h₄).trans h₅).lineMade rfl
  rw [wp_ite]
  split
  · refine wp_bind_same (sameTimes (aside_readlink _)) fun target w₄ h₄ => ?_
    refine wp_bind_same (hput _ _) fun index w₅ h₅ => ?_
    exact ((h.trans h₄).trans h₅).lineMade rfl
  rw [wp_ite]
  split
  · refine wp_bind_same (hput _ _) fun index w₄ h₄ => ?_
    exact (h.trans h₄).lineMade rfl
  rw [wp_ite]
  split
  · refine wp_bind_same (hput _ _) fun index w₄ h₄ => ?_
    exact (h.trans h₄).lineMade rfl
  · exact h.lineMade rfl

/-! ### Copies -/

/-- A file whose contents are copied in is read. -/
theorem wp_addHashable_times {hb : Hashable} (hhp : hb.hp = objectPath cfg.repo hb.hash) (w : World) :
    wp (addHashable cfg hb)
      (fun _ w' => SameTimes cfg w w' ∨ w'.accesses = .read hb.path :: w.accesses ∧
        ∃ h, objectPath cfg.repo h ∈ w'.written)
      (fun _ _ => True) w := by
  refine wp_bind_same (sameTimes (aside_exists _)) fun found w₁ h₁ => ?_
  rw [wp_ite]
  split
  · exact .inl h₁
  refine wp_bind_same (sameTimes aside_tick) fun m w₂ h₂ => ?_
  split
  · trivial
  rw [hhp]
  refine wp_bind_same (sameTimes (aside_openObject _)) fun dst w₃ h₃ => ?_
  rw [wp_bind, wp_access]
  refine wp_bind_same (sameTimes (aside_put _ _)) fun dst w₄ h₄ => ?_
  split
  · trivial
  rw [wp_ite]
  split
  · trivial
  refine wp_bind_same (sameTimes (aside_flush _)) fun dst w₅ h₅ => ?_
  refine wp_mono (wp_rename cfg _ _ w₅) ?_ fun _ _ _ => trivial
  rintro _ w₆ ⟨data, -, rfl⟩
  refine .inr ⟨?_, hb.hash, List.mem_cons_self⟩
  change w₅.accesses = _
  rw [h₅.accesses, h₄.accesses]
  change Access.read hb.path :: w₃.accesses = _
  rw [h₃.accesses, h₂.accesses, h₁.accesses]

/-! ### Directories -/

variable {φ : Type} [DecidableEq φ] {fs : AtimeFs φ} {w w' : World}

/-- The access times between two directories: those from before the run, until a file has been
copied. -/
structure Times (cfg : Config) (fs : AtimeFs φ) (w : World) : Prop where
  kept : (∀ h, objectPath cfg.repo h ∉ w.written) → fs.atime w.accesses = fs.before
  touched : ∀ h, objectPath cfg.repo h ∈ w.written → ∃ path sb n, .lstat path sb ∈ w.accesses ∧
    sb.is S_IFREG ∧ fs.atime w.accesses (fs.file path) = fs.now n

theorem Times.lines (h : Times cfg fs w) (hatime : fs.atime w'.accesses = fs.atime w.accesses)
    (hmem : ∀ a ∈ w.accesses, a ∈ w'.accesses)
    (hobj : ∀ h, objectPath cfg.repo h ∈ w'.written ↔ objectPath cfg.repo h ∈ w.written) :
    Times cfg fs w' where
  kept hno := by
    rw [hatime]
    exact h.kept fun hash => mt (hobj hash).mpr (hno hash)
  touched hash hh := by
    obtain ⟨path, sb, n, hlstat, htype, hnow⟩ := h.touched hash ((hobj hash).mp hh)
    exact ⟨path, sb, n, hmem _ hlstat, htype, by rw [hatime, hnow]⟩

theorem Times.copied {path : Bytes} {sb : Stat} (hlstat : .lstat path sb ∈ w.accesses)
    (htype : sb.is S_IFREG) (hw' : w'.accesses = .read path :: w.accesses)
    (hobj : ∃ h, objectPath cfg.repo h ∈ w'.written) : Times cfg fs w' where
  kept hno := absurd hobj.choose_spec (hno _)
  touched _ _ := by
    rw [hw']
    exact ⟨path, sb, _, List.mem_cons_of_mem _ hlstat, htype, Function.update_self _ _ _⟩

/-- What the lines of a directory have done since its files were looked at, in `w`; `t` are the
access times then. -/
structure LinesMade (cfg : Config) (fs : AtimeFs φ) (t : φ → Int64) (w : World) (p : Progress)
    (w' : World) : Prop where
  atime : fs.Truthful w'.accesses → fs.Truthful w.accesses ∧ fs.atime w'.accesses = t
  mem : ∀ a ∈ w.accesses, a ∈ w'.accesses
  objects : ∀ h, objectPath cfg.repo h ∈ w'.written ↔ objectPath cfg.repo h ∈ w.written
  queued : ∀ hb ∈ p.hashables, hb.hp = objectPath cfg.repo hb.hash ∧
    ∃ sb, .lstat hb.path sb ∈ w.accesses ∧ sb.is S_IFREG

/-- One more line. -/
theorem LinesMade.line {t : φ → Int64} {p p' : Progress} {w'' : World} {path : Bytes} {sb : Stat}
    (h : LinesMade cfg fs t w p w') (hline : LineMade cfg path sb p p' w' w'')
    (hlstat : .lstat path sb ∈ w.accesses)
    (hsb : fs.Truthful w.accesses → sb.is S_IFREG → sb.st_atime = t (fs.file path)) :
    LinesMade cfg fs t w p' w'' where
  atime htrue := by
    rcases hline.accesses with hsame | ⟨l, hl, hw''⟩
    · rw [hsame] at htrue ⊢
      exact h.atime htrue
    · have htype : sb.is S_IFREG := hline.regular fun e => by
        have := congrArg List.length (hw''.symm.trans e)
        simp at this
        omega
      rw [hw''] at htrue ⊢
      obtain ⟨htrue₀, ht⟩ := h.atime (AtimeFs.Truthful.of_append (l := l) htrue)
      refine ⟨htrue₀, ?_⟩
      rw [hsb htrue₀ htype, ← ht]
      exact AtimeFs.atime_reset hl _
  mem a ha := by
    rcases hline.accesses with hsame | ⟨l, hl, hw''⟩
    · rw [hsame]
      exact h.mem a ha
    · rw [hw'']
      exact List.mem_cons_of_mem _ (List.mem_append_right _ (h.mem a ha))
  objects hash := (hline.objects hash).trans (h.objects hash)
  queued hb hm := by
    rcases hline.queued hb hm with hm | ⟨⟨hpath, hhp⟩, htype⟩
    · exact h.queued hb hm
    · exact ⟨hhp, sb, hpath ▸ hlstat, htype⟩

/-- The lines of a directory leave the access times as they were when its files were looked at. -/
theorem wp_lines_times (fs : AtimeFs φ) (hatime : cfg.preserve_atime = true) {dir : Bytes} {files : List (Bytes × Stat)}
    {l log : List Access} (hw : w.accesses = l ++ log) (hl : ∀ a ∈ l, ∃ path sb, a = .lstat path sb)
    (hfiles : ∀ p ∈ files, .lstat (fullname cfg.root (localname dir p.1)) p.2 ∈ l) (index : OFile) :
    wp ((sortedNames files).foldlM (backupFile cfg dir files) { index })
      (fun p w' => LinesMade cfg fs (fs.atime log) w p w') (fun _ _ => True) w := by
  have hstart : LinesMade cfg fs (fs.atime log) w { index } w := by
    refine ⟨fun htrue => ⟨htrue, ?_⟩, fun _ ha => ha, fun _ => Iff.rfl, by simp⟩
    rw [hw, AtimeFs.atime_lstats hl]
  refine wp_foldlM (fun _ p w' => LinesMade cfg fs (fs.atime log) w p w') ?_ hstart
  intro pre name post p w' hnames h
  have hname : name ∈ sortedNames files := hnames ▸ by simp
  have hm := hfiles _ (statOf_mem (mem_sortedNames.mp hname))
  refine wp_mono (wp_backupFile_line hatime dir files p name w') (fun p' w'' hline => ?_)
    fun _ _ _ => trivial
  refine h.line hline (by rw [hw]; exact List.mem_append_left _ hm) fun htrue htype => ?_
  rw [hw] at htrue
  exact htrue.lstat hl hm htype

/-- Then the contents that are queued are copied. -/
theorem wp_copies_times {hbs : List Hashable} (h : fs.Truthful w.accesses → Times cfg fs w)
    (hqueued : ∀ hb ∈ hbs, hb.hp = objectPath cfg.repo hb.hash ∧
      ∃ sb, .lstat hb.path sb ∈ w.accesses ∧ sb.is S_IFREG) :
    wp (hbs.forM (addHashable cfg))
      (fun _ w' => fs.Truthful w'.accesses → Times cfg fs w') (fun _ _ => True) w := by
  refine wp_mono (wp_forM (fun _ w' => (∀ a ∈ w.accesses, a ∈ w'.accesses) ∧
    (fs.Truthful w'.accesses → Times cfg fs w')) ?_ ⟨fun _ ha => ha, h⟩) (fun _ _ h => h.2)
    fun _ _ h => h
  rintro pre hb post w₁ rfl ⟨hmem, ht⟩
  obtain ⟨hhp, sb, hlstat, htype⟩ := hqueued hb (by simp)
  refine wp_mono (wp_addHashable_times hhp w₁) ?_ fun _ _ _ => trivial
  rintro _ w₂ (hsame | ⟨hw₂, hobj⟩)
  · refine ⟨fun a ha => ?_, fun htrue => ?_⟩
    · rw [hsame.accesses]
      exact hmem a ha
    · rw [hsame.accesses] at htrue
      refine (ht htrue).lines ?_ (fun a ha => ?_) hsame.objects
      · rw [hsame.accesses]
      · rwa [hsame.accesses]
  · refine ⟨fun a ha => ?_, fun _ => .copied (hmem _ hlstat) htype hw₂ hobj⟩
    rw [hw₂]
    exact List.mem_cons_of_mem _ (hmem a ha)

/-- One directory. -/
theorem wp_backupFiles_times (hatime : cfg.preserve_atime = true) (dir : Bytes) (index : OFile)
    (h : fs.Truthful w.accesses → Times cfg fs w) :
    wp (backupFiles cfg dir index) (fun _ w' => fs.Truthful w'.accesses → Times cfg fs w')
      (fun _ _ => True) w := by
  refine wp_bind_same (sameTimes (aside_hostContents _)) fun c w₁ h₁ => ?_
  rw [wp_bind]
  refine wp_mono (wp_statFiles_lstats dir c w₁) ?_ fun _ _ _ => trivial
  rintro files w₂ ⟨hwritten, l, hl, hw₂, hfiles⟩
  rw [wp_bind]
  refine wp_mono (wp_lines_times fs hatime hw₂ hl hfiles index) ?_ fun _ _ _ => trivial
  intro p w₃ h₃
  rw [wp_bind]
  refine wp_mono (wp_copies_times (fun htrue => ?_) fun hb hm => ?_) (fun _ _ h => h) fun _ _ h => h
  · obtain ⟨htrue₂, ht⟩ := h₃.atime htrue
    rw [hw₂, h₁.accesses] at htrue₂
    refine (h htrue₂.of_append).lines ?_ (fun a ha => h₃.mem a ?_) fun hash => ?_
    · rw [ht, h₁.accesses]
    · rw [hw₂, h₁.accesses]
      exact List.mem_append_right _ ha
    · rw [h₃.objects, hwritten, h₁.objects]
  · obtain ⟨hhp, sb, hlstat, htype⟩ := h₃.queued hb hm
    exact ⟨hhp, sb, h₃.mem _ hlstat, htype⟩

theorem wp_backup_dir_times (hatime : cfg.preserve_atime = true) (depth : Nat) (index : OFile)
    (dir : Bytes) (h : fs.Truthful w.accesses → Times cfg fs w) :
    wp (backup_dir cfg depth index dir) (fun _ w' => fs.Truthful w'.accesses → Times cfg fs w')
      (fun _ _ => True) w := by
  induction depth generalizing index dir w with
  | zero => trivial
  | succ depth ih =>
    rw [backup_dir, wp_bind]
    refine wp_mono (wp_backupFiles_times hatime dir index h) ?_ fun _ _ h => h
    intro p w₁ h₁
    exact wp_foldlM (fun _ _ w' => fs.Truthful w'.accesses → Times cfg fs w')
      (fun _ _ _ index _ _ h => ih index _ h) h₁

/-! ### The whole run -/

theorem sameTimes_modify {f : World → World} (hf : ∀ w, (f w).accesses = w.accesses)
    (hwritten : ∀ w, (f w).written = w.written) :
    Frames (SameTimes cfg) (modify f : M PUnit) :=
  .modify fun w => ⟨hf w, fun _ => by rw [hwritten]⟩

theorem sameTimes_loadHint (d : Details) : Frames (SameTimes cfg) (loadHint d) :=
  (sameTimes (aside_liftExcept cfg _)).bind fun _ => sameTimes_modify (fun _ => rfl) fun _ => rfl

theorem sameTimes_load_hints : Frames (SameTimes cfg) (load_hints cfg) := by
  have hcall : ∀ doing path, Frames SameAccesses (call cfg doing path) := fun doing path =>
    sameAccesses (aside_call doing path)
  refine .bind (sameTimes_onLocal ?_) fun found => .ite ?_ (.pure _)
  · exact (hcall _ _).bind fun _ => .get_bind fun _ => .pure _
  refine .bind (sameTimes_onLocal ?_) fun f => ?_
  · exact (hcall _ _).bind fun _ => .get_bind fun _ => sameAccesses (aside_liftExcept cfg _)
  rw [whileReadIndexLine_eq_entriesOf]
  refine .bind (.forM sameTimes_loadHint _) fun _ => ?_
  cases (entriesOf f).2
  · exact .pure _
  · exact .throw _

theorem sameTimes_startHints : Frames (SameTimes cfg) (startHints cfg) := by
  refine .ite (.pure _) ?_
  refine .bind (sameTimes_modify (fun _ => rfl) fun _ => rfl) fun _ => ?_
  refine sameTimes_load_hints.bind fun _ => .bind (sameTimes_onLocal fun w => ?_) fun o =>
    sameTimes_modify (fun _ => rfl) fun _ => rfl
  refine wp_mono (wp_openWrite cfg _ w) ?_ ?_
  · rintro o w' ⟨-, -, rfl⟩
    rfl
  · rintro _ w' rfl
    rfl

/-- **The access times after a run.** -/
theorem wp_do_backup_times (fs : AtimeFs φ) (ho : Outside cfg) (hatime : cfg.preserve_atime = true)
    (depth : Nat) (store hintStore : Store) :
    wp (do_backup cfg depth) (fun _ w => fs.Truthful w.accesses → Times cfg fs w)
      (fun _ _ => True) { store, hintStore } := by
  have hindex : ∀ {path}, ¬ Under (objectsDir cfg.repo) path → ∀ h, objectPath cfg.repo h ≠ path :=
    fun hno h e => hno (e ▸ under_objectsDir cfg.repo h)
  have hsame : ∀ {w w' : World}, SameTimes cfg w w' → (fs.Truthful w.accesses → Times cfg fs w) →
      fs.Truthful w'.accesses → Times cfg fs w' := by
    intro w w' hs h htrue
    rw [hs.accesses] at htrue
    exact (h htrue).lines (by rw [hs.accesses]) (fun a ha => by rwa [hs.accesses]) hs.objects
  refine wp_bind_same (sameTimes aside_checkBackup) fun _ w₁ h₁ => ?_
  refine wp_bind_same sameTimes_startHints fun _ w₂ h₂ => ?_
  refine wp_bind_same (sameTimes (aside_openWrite (hindex ho.indexPath))) fun o w₃ h₃ => ?_
  have hstart : fs.Truthful w₃.accesses → Times cfg fs w₃ :=
    hsame ((h₁.trans h₂).trans h₃) fun _ => ⟨fun _ => rfl, fun _ hm => absurd hm List.not_mem_nil⟩
  rw [wp_bind]
  refine wp_mono (wp_backup_dir_times hatime depth o _ hstart) ?_ fun _ _ h => h
  intro o w₄ h₄
  refine wp_bind_same (sameTimes (aside_put _ _)) fun o w₅ h₅ => ?_
  refine wp_bind_same (sameTimes (aside_flush _)) fun o w₆ h₆ => ?_
  refine wp_bind_same sameTimes_finishHints fun _ w₇ h₇ => ?_
  have hend := hsame ((h₅.trans h₆).trans h₇) h₄
  rw [wp_ite]
  split
  · exact hend
  refine wp_mono (wp_rename cfg _ _ w₇) ?_ fun _ _ _ => trivial
  rintro _ w₈ ⟨data, -, rfl⟩
  refine hsame (w := w₇) ⟨rfl, fun h => ?_⟩ hend
  exact ⟨fun hm => (List.mem_cons.mp hm).resolve_left (hindex ho.indexfile h),
    List.mem_cons_of_mem _⟩

end Hbackup
