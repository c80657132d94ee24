import Hbackup.Equiv.Walk

/-!
# What a backup keeps true

The state of a backup between two lines of the index (`At`): the index holds the lines of the
entries so far and a piece of the next one, the contents looked for so far have been copied
(`done`) or wait at the end of the directory (`queue`), and the repository satisfies what is to be
shown of it (`I`).  Whatever `KeepsRepo` the copying of one file keeps, the whole backup keeps, and
wherever it stops before the end marker is put, the index on disk is a prefix of that text of which
no line is an end marker (`Stopped`).
-/

namespace Hbackup

open ProgramLogic Separated

/-! ### The index -/

/-- No line begins with the first character of the end marker. -/
def Unended (text : Bytes) : Prop := ∀ line ∈ text.splitOn 10, line.head? ≠ some 91

/-- Nothing, or the beginning of an entry's line. -/
def Begun (frag : Bytes) : Prop := frag = [] ∨ frag.head? = some 110 ∧ 10 ∉ frag

theorem Begun.append {frag : Bytes} (h : frag.head? = some 110 ∧ 10 ∉ frag) {s : Bytes}
    (hs : 10 ∉ s) : Begun (frag ++ s) := by
  refine .inr ⟨?_, by simp [h.2, hs]⟩
  rw [List.head?_append, h.1]
  rfl

theorem Entry.begun (e : Entry) : e.line.head? = some 110 ∧ 10 ∉ e.line := by
  refine ⟨?_, e.newline_not_mem⟩
  rw [e.line_eq, genericDetails]
  rfl

theorem splitOn_unlines {ls : List Bytes} (hls : ∀ l ∈ ls, 10 ∉ l) {frag : Bytes} (hf : 10 ∉ frag) :
    (unlines 10 ls ++ frag).splitOn 10 = ls ++ [frag] := by
  induction ls with
  | nil => exact splitOn_of_cutAt_none (cutAt_eq_none_iff.mpr hf)
  | cons l ls ih =>
    rw [unlines_cons, List.append_assoc, List.cons_append,
      splitOn_of_cutAt (cutAt_append (hls l List.mem_cons_self) _),
      ih fun l' hl' => hls l' (List.mem_cons_of_mem l hl')]
    rfl

/-- **A prefix of an unfinished index has no end marker.** -/
theorem unended_of_isPrefix {es : List Entry} {frag d : Bytes} (hf : Begun frag)
    (hd : d <+: unlines 10 (es.map Entry.line) ++ frag) : Unended d := by
  have hprefix : ∀ {l p : Bytes}, (l = [] ∨ l.head? = some 110 ∧ 10 ∉ l) → p <+: l →
      p.head? ≠ some 91 ∧ 10 ∉ p := by
    rintro l p hl ⟨r, rfl⟩
    rcases hl with hl | ⟨hhead, hnl⟩
    · rw [(List.append_eq_nil_iff.mp hl).1]
      simp
    · refine ⟨fun h => ?_, fun h => hnl (List.mem_append_left r h)⟩
      rw [List.head?_append, h] at hhead
      exact absurd (Option.some.inj hhead) (by decide)
  have hlines : ∀ l ∈ es.map Entry.line, l.head? = some 110 ∧ 10 ∉ l := by
    intro l hl
    obtain ⟨e, -, rfl⟩ := List.mem_map.mp hl
    exact e.begun
  obtain ⟨ls, frag', hls, rfl, hf'⟩ : ∃ ls frag', (∀ l ∈ ls, l.head? = some 110 ∧ 10 ∉ l) ∧
      d = unlines 10 ls ++ frag' ∧ frag'.head? ≠ some 91 ∧ 10 ∉ frag' := by
    rcases prefix_append_cases hd with hp | ⟨q, rfl, hq⟩
    · rcases prefix_unlines hp with rfl | ⟨pre, x, post, frag', hes, rfl, hf'⟩
      · exact ⟨_, [], hlines, (List.append_nil _).symm, by simp, by simp⟩
      · have hx : x ∈ es.map Entry.line := by rw [hes]; simp
        exact ⟨pre, frag', fun l hl => hlines l (by rw [hes]; simp [hl]), rfl,
          hprefix (.inr (hlines x hx)) hf'⟩
    · exact ⟨_, q, hlines, rfl, hprefix hf hq⟩
  intro line hline
  rw [splitOn_unlines (fun l hl => (hls l hl).2) hf'.2] at hline
  rcases List.mem_append.mp hline with hl | hl
  · rw [(hls line hl).1]
    decide
  · rw [List.mem_singleton.mp hl]
    exact hf'.1

/-! ### The invariant -/

/-- The paths of the index are not those of objects. -/
structure Outside (cfg : Config) : Prop where
  indexfile : ¬ Under (objectsDir cfg.repo) cfg.indexfile

theorem Outside.indexPath {cfg : Config} (h : Outside cfg) :
    ¬ Under (objectsDir cfg.repo) (indexPath cfg) := by
  unfold Hbackup.indexPath
  split_ifs
  · exact h.indexfile
  · exact not_under_tmp h.indexfile

theorem under_tmpPath (repo : Bytes) (h : Hash) : Under (objectsDir repo) (tmpPath repo h) :=
  (under_objectsDir repo h).append _

/-- Nothing has happened to the repository. -/
structure SameRepo (cfg : Config) (w w' : World) : Prop where
  store : ∀ q, q ≠ cfg.indexfile → q ≠ cfg.indexfile ++ lit ".tmp" →
    w'.store.lookup q = w.store.lookup q
  written : ∀ h, w'.written.count (objectPath cfg.repo h) = w.written.count (objectPath cfg.repo h)

theorem SameRepo.of_eq {cfg : Config} {w w' : World} (hs : w'.store = w.store)
    (hw : w'.written = w.written) : SameRepo cfg w w' :=
  ⟨fun _ _ _ => by rw [hs], fun _ => by rw [hw]⟩

theorem Puts.sameRepo {cfg : Config} {w w' : World} (h : Puts (indexPath cfg) w w') :
    SameRepo cfg w w' := by
  refine ⟨fun q hq hqtmp => h.others q ?_, fun _ => by rw [h.books.written]⟩
  unfold indexPath
  split_ifs
  · exact hq
  · exact hqtmp

/-- What is known of the repository: `I done queue w` while objects are copied, and `J w` when a run
has stopped. -/
structure KeepsRepo (cfg : Config) (hs : Option (List (Bytes × Hint)))
    (I : List Hashable → List Hashable → World → Prop) (J : World → Prop) : Prop where
  weaken : ∀ {done queue w}, I done queue w → J w
  congr : ∀ {done queue w w'}, I done queue w → SameRepo cfg w w' → I done queue w'
  queue : ∀ {done queue w hb}, I done queue w → hb.hash ∉ (done ++ queue).map Hashable.hash →
    (∃ sb, HashFrom cfg hs hb.path sb hb.hash) → I done (queue ++ [hb]) w
  add : ∀ {done queue w w' hb K}, I done (hb :: queue) w → Added cfg K hb w w' →
    I (done ++ [hb]) queue w'
  scratch : ∀ {done queue w w' hb}, I done (hb :: queue) w →
    Scratched cfg.repo hb.hash w w' → J w'

/-- Nothing is known of the repository. -/
theorem keepsRepo_trivial {cfg : Config} {hs : Option (List (Bytes × Hint))} :
    KeepsRepo cfg hs (fun _ _ _ => True) fun _ => True where
  weaken _ := trivial
  congr _ _ := trivial
  queue _ _ _ := trivial
  add _ _ := trivial
  scratch _ _ := trivial

/-- The new hint file, if there is one, holds `text`. -/
def HoldsHints (cfg : Config) (text : Bytes) (w : World) : Prop :=
  match w.newhints with
  | none => cfg.hintfile = []
  | some o => o.path = cfg.hintfile ++ lit ".tmp" ∧ HoldsIn w.hintStore o text

theorem HoldsHints.congr {cfg : Config} {text : Bytes} {w w' : World} (h : HoldsHints cfg text w)
    (hsame : SameHints w w') : HoldsHints cfg text w' := by
  unfold HoldsHints at *
  rw [hsame.newhints]
  split
  · rename_i hnone
    rw [hnone] at h
    exact h
  · rename_i o ho
    rw [ho] at h
    exact ⟨h.1, by rw [hsame.hintStore]; exact h.2⟩

/-- The state of a backup. -/
structure At (cfg : Config) (hs : Option (List (Bytes × Hint)))
    (I : List Hashable → List Hashable → World → Prop) (done queue : List Hashable) (hint : Bytes)
    (es : List Entry) (frag : Bytes) (o : OFile) (w : World) : Prop where
  repo : I done queue w
  asked : Asked cfg (fun path => ∃ hb ∈ queue, path = hb.hp) w
  hps : ∀ hb ∈ queue, hb.hp = objectPath cfg.repo hb.hash
  inrepo : w.inrepo = ((done ++ queue).map Hashable.hash).reverse
  hidden : cfg.indexfile ∈ w.written → cfg.overwrite_index = true
  names : KnowsNames cfg w.names
  hints : w.hints = hs
  newhints : HoldsHints cfg hint w
  path : o.path = indexPath cfg
  holds : Holds o (unlines 10 (es.map Entry.line) ++ frag) w
  begun : Begun frag

/-- Where a run stops before its index is finished. -/
structure Stopped (cfg : Config) (J : World → Prop) (w : World) : Prop where
  repo : J w
  index : cfg.indexfile ∈ w.written →
    ∃ d, w.store.lookup cfg.indexfile = some (.file d) ∧ Unended d

variable {cfg : Config} {hs : Option (List (Bytes × Hint))}
  {I : List Hashable → List Hashable → World → Prop} {J : World → Prop}
  {done queue : List Hashable} {hint : Bytes} {es : List Entry} {frag : Bytes} {o : OFile}
  {w w' : World}

/-- What is left when the index has been cut short. -/
theorem stopped_of_isPrefix (hJ : J w)
    (hidden : cfg.indexfile ∈ w.written → cfg.overwrite_index = true) (hf : Begun frag)
    (hd : ∃ d, w.store.lookup (indexPath cfg) = some (.file d) ∧
      d <+: unlines 10 (es.map Entry.line) ++ frag) : Stopped cfg J w := by
  refine ⟨hJ, fun hw => ?_⟩
  obtain ⟨d, hd, hpre⟩ := hd
  rw [indexPath, if_pos (hidden hw)] at hd
  exact ⟨d, hd, unended_of_isPrefix hf hpre⟩

theorem At.stopped (hkeeps : KeepsRepo cfg hs I J) (h : At cfg hs I done queue hint es frag o w) :
    Stopped cfg J w :=
  stopped_of_isPrefix (hkeeps.weaken h.repo) h.hidden h.begun (h.path ▸ h.holds.stored_isPrefix)

/-- The run stops, and nothing has happened to the backup filesystem. -/
theorem At.stopped_of_store (hkeeps : KeepsRepo cfg hs I J)
    (h : At cfg hs I done queue hint es frag o w) (hstore : w'.store = w.store)
    (hwritten : w'.written = w.written) : Stopped cfg J w' := by
  have hd : ∃ d, w'.store.lookup (indexPath cfg) = some (.file d) ∧
      d <+: unlines 10 (es.map Entry.line) ++ frag := by
    rw [hstore, ← h.path]
    exact h.holds.stored_isPrefix
  refine stopped_of_isPrefix (hkeeps.weaken (hkeeps.congr h.repo (.of_eq hstore hwritten))) ?_
    h.begun hd
  rw [hwritten]
  exact h.hidden

/-- Nothing happens to the backup filesystem. -/
theorem At.steady (hkeeps : KeepsRepo cfg hs I J) (h : At cfg hs I done queue hint es frag o w)
    (hstore : w'.store = w.store) (hbooks : SameBooks w w') (hhints : SameHints w w') :
    At cfg hs I done queue hint es frag o w' where
  repo := hkeeps.congr h.repo (.of_eq hstore hbooks.written)
  asked := h.asked.congr hbooks.existence hbooks.existence_inflight fun _ _ => by rw [hstore]
  hps := h.hps
  inrepo := hbooks.inrepo.trans h.inrepo
  hidden := by rw [hbooks.written]; exact h.hidden
  names := by rw [hbooks.names]; exact h.names
  hints := hbooks.hints.trans h.hints
  newhints := h.newhints.congr hhints
  path := h.path
  holds := ⟨by rw [hstore]; exact h.holds.stored, h.holds.started⟩
  begun := h.begun

theorem At.clock (hkeeps : KeepsRepo cfg hs I J) (h : At cfg hs I done queue hint es frag o w) (n : Nat) :
    At cfg hs I done queue hint es frag o { w with clock := n } :=
  h.steady hkeeps rfl ⟨rfl, rfl, rfl, rfl, rfl, rfl⟩ ⟨rfl, rfl⟩

theorem At.warnings (hkeeps : KeepsRepo cfg hs I J) (h : At cfg hs I done queue hint es frag o w)
    (n : Nat) : At cfg hs I done queue hint es frag o { w with warnings := n } :=
  h.steady hkeeps rfl ⟨rfl, rfl, rfl, rfl, rfl, rfl⟩ ⟨rfl, rfl⟩

theorem At.accesses (hkeeps : KeepsRepo cfg hs I J) (h : At cfg hs I done queue hint es frag o w)
    (l : List Access) : At cfg hs I done queue hint es frag o { w with accesses := l } :=
  h.steady hkeeps rfl ⟨rfl, rfl, rfl, rfl, rfl, rfl⟩ ⟨rfl, rfl⟩

/-- A call on the host: one tick later, or the end of the run. -/
theorem At.wp_tick (hkeeps : KeepsRepo cfg hs I J) (h : At cfg hs I done queue hint es frag o w)
    {α : Type} {k : Moment → M α} {Q : α → World → Prop}
    (hk : ∀ n w', At cfg hs I done queue hint es frag o w' →
      wp (k (cfg.env n)) Q (fun _ => Stopped cfg J) w') :
    wp (tick cfg >>= k) Q (fun _ => Stopped cfg J) w := by
  rw [wp_bind, Hbackup.wp_tick]
  split_ifs
  · exact (h.clock hkeeps _).stopped hkeeps
  · exact hk _ _ (h.clock hkeeps _)

/-- A piece is put into the index. -/
theorem At.wp_putIndex (hkeeps : KeepsRepo cfg hs I J) (ho : Outside cfg)
    (h : At cfg hs I done queue hint es frag o w) (piece : Bytes) {es' : List Entry} {frag' : Bytes}
    (htext : unlines 10 (es.map Entry.line) ++ frag ++ piece =
      unlines 10 (es'.map Entry.line) ++ frag') (hbegun : Begun frag') :
    wp (putIndex cfg o piece) (fun o' w' => At cfg hs I done queue hint es' frag' o' w')
      (fun _ => Stopped cfg J) w := by
  have hne : ∀ hb ∈ queue, hb.hp ≠ indexPath cfg := by
    intro hb hm e
    rw [h.hps hb hm] at e
    exact ho.indexPath (e ▸ under_objectsDir cfg.repo hb.hash)
  refine wp_mono ((backupWriter cfg).wp_put piece h.holds) ?_ ?_
  · rintro o' w' ⟨hputs, hpath, hholds⟩
    rw [h.path] at hputs
    exact {
      repo := hkeeps.congr h.repo hputs.sameRepo
      asked := h.asked.congr hputs.books.existence hputs.books.existence_inflight
        fun path ⟨hb, hm, hp⟩ => by rw [hputs.others path (hp ▸ hne hb hm)]
      hps := h.hps
      inrepo := hputs.books.inrepo.trans h.inrepo
      hidden := by rw [hputs.books.written]; exact h.hidden
      names := by rw [hputs.books.names]; exact h.names
      hints := hputs.books.hints.trans h.hints
      newhints := h.newhints.congr hputs.hints
      path := hpath.trans h.path
      holds := htext ▸ hholds
      begun := hbegun }
  · rintro stop w' ⟨hputs, hd⟩
    rw [h.path] at hputs hd
    rw [htext] at hd
    exact stopped_of_isPrefix (hkeeps.weaken (hkeeps.congr h.repo hputs.sameRepo))
      (by rw [hputs.books.written]; exact h.hidden) hbegun hd

/-! ### Names, hints and hashes -/

/-- New names are remembered. -/
theorem At.names_cons (hkeeps : KeepsRepo cfg hs I J) (h : At cfg hs I done queue hint es frag o w)
    {names : Names} (hn : KnowsNames cfg names) (n : Nat) :
    At cfg hs I done queue hint es frag o { w with warnings := n, names } where
  repo := hkeeps.congr h.repo (.of_eq rfl rfl)
  asked := h.asked.congr rfl rfl fun _ _ => rfl
  hps := h.hps
  inrepo := h.inrepo
  hidden := h.hidden
  names := hn
  hints := h.hints
  newhints := h.newhints.congr ⟨rfl, rfl⟩
  path := h.path
  holds := ⟨h.holds.stored, h.holds.started⟩
  begun := h.begun

theorem At.wp_uid2string (hkeeps : KeepsRepo cfg hs I J) (h : At cfg hs I done queue hint es frag o w)
    (uid : UInt32) :
    wp (uid2string cfg uid)
      (fun name w' => name = idName cfg.users.getpwuid uid ∧
        At cfg hs I done queue hint es frag o w') (fun _ => Stopped cfg J) w :=
  wp_id2string uid (h.names.uid uid) ⟨rfl, h⟩ fun n => by
    have hn : KnowsNames cfg { w.names with
        uid2names := (uid, idName cfg.users.getpwuid uid) :: w.names.uid2names } :=
      ⟨KnowsNames.lookup_cons h.names.uid, h.names.gid⟩
    exact ⟨rfl, h.names_cons hkeeps hn n⟩

theorem At.wp_gid2string (hkeeps : KeepsRepo cfg hs I J) (h : At cfg hs I done queue hint es frag o w)
    (gid : UInt32) :
    wp (gid2string cfg gid)
      (fun name w' => name = idName cfg.users.getgrgid gid ∧
        At cfg hs I done queue hint es frag o w') (fun _ => Stopped cfg J) w :=
  wp_id2string gid (h.names.gid gid) ⟨rfl, h⟩ fun n => by
    have hn : KnowsNames cfg { w.names with
        gid2names := (gid, idName cfg.users.getgrgid gid) :: w.names.gid2names } :=
      ⟨h.names.uid, KnowsNames.lookup_cons h.names.gid⟩
    exact ⟨rfl, h.names_cons hkeeps hn n⟩

/-! ### Hints and hashes -/

/-- Something happens to the hint files only. -/
theorem At.newHints (hkeeps : KeepsRepo cfg hs I J) (h : At cfg hs I done queue hint es frag o w)
    (hstore : w'.store = w.store) (hbooks : SameBooks w w') {hint' : Bytes}
    (hnew : HoldsHints cfg hint' w') : At cfg hs I done queue hint' es frag o w' where
  repo := hkeeps.congr h.repo (.of_eq hstore hbooks.written)
  asked := h.asked.congr hbooks.existence hbooks.existence_inflight fun _ _ => by rw [hstore]
  hps := h.hps
  inrepo := hbooks.inrepo.trans h.inrepo
  hidden := by rw [hbooks.written]; exact h.hidden
  names := by rw [hbooks.names]; exact h.names
  hints := hbooks.hints.trans h.hints
  newhints := hnew
  path := h.path
  holds := by rw [Holds, hstore]; exact h.holds
  begun := h.begun

/-- Something is put into the new hint file. -/
theorem At.wp_putHints (hkeeps : KeepsRepo cfg hs I J) (h : At cfg hs I done queue hint es frag o w)
    (text : Bytes) :
    wp (putHints cfg text) (fun _ w' => At cfg hs I done queue (hint ++ text) es frag o w')
      (fun _ => Stopped cfg J) w := by
  have hnew := h.newhints
  unfold HoldsHints at hnew
  rw [putHints, wp_bind, wp_get]
  split
  · rename_i hnone
    rw [hnone] at hnew
    refine h.newHints hkeeps rfl (.refl w) ?_
    rw [HoldsHints, hnone]
    exact hnew
  · rename_i f hf
    rw [hf] at hnew
    rw [wp_bind]
    refine wp_mono ((hintWriter cfg).wp_put text hnew.2) ?_ ?_
    · rintro f' w' ⟨hputs, hpath, hholds⟩
      have hnew' : HoldsHints cfg (hint ++ text) { w' with newhints := some f' } :=
        ⟨hpath.trans hnew.1, hholds⟩
      have hbooks : SameBooks w { w' with newhints := some f' } :=
        hputs.books.trans ⟨rfl, rfl, rfl, rfl, rfl, rfl⟩
      rw [wp_modify]
      exact h.newHints hkeeps (by exact hputs.store) hbooks hnew'
    · rintro _ w' ⟨hputs, -⟩
      exact h.stopped_of_store hkeeps hputs.store hputs.books.written

theorem At.wp_hashOf (hkeeps : KeepsRepo cfg hs I J) (h : At cfg hs I done queue hint es frag o w)
    (path : Bytes) (sb : Stat) :
    wp (hashOf cfg path sb)
      (fun hash w' => HashFrom cfg hs path sb hash ∧ At cfg hs I done queue hint es frag o w')
      (fun _ => Stopped cfg J) w := by
  rw [hashOf, wp_bind, wp_get, h.hints]
  split
  · rename_i hash hhint
    exact ⟨.inl hhint, h⟩
  · rename_i hhint
    rw [hashHostFile]
    refine h.wp_tick hkeeps fun n w' h' => ?_
    split
    · exact h'.stopped hkeeps
    rename_i data fault hdata
    rw [wp_bind, wp_access]
    have h'' := h'.accesses hkeeps (.read path :: w'.accesses)
    split
    · exact h''.stopped hkeeps
    · exact ⟨.inr ⟨hhint, data, ⟨n, hdata⟩, rfl⟩, h''⟩

theorem wp_readHost (path : Bytes) (space : Nat) (Q : Unit → World → Prop) (E : Stop → World → Prop)
    (w : World) :
    wp (readHost path space) Q E w ↔
      Q () { w with accesses := (if space = 0 then [] else [.read path]) ++ w.accesses } := by
  unfold readHost
  split_ifs <;> exact Iff.rfl

theorem At.wp_smallFile (hkeeps : KeepsRepo cfg hs I J) (h : At cfg hs I done queue hint es frag o w)
    (path : Bytes) (sb : Stat) :
    wp (smallFile cfg path sb)
      (fun bytes w' => (∃ data fault, WasRead cfg path data fault ∧ sb.st_size ≤ data.length ∧
        bytes = data.take sb.st_size) ∧ At cfg hs I done queue hint es frag o w')
      (fun _ => Stopped cfg J) w := by
  rw [smallFile]
  refine h.wp_tick hkeeps fun n w' h' => ?_
  split
  · exact h'.stopped hkeeps
  · rename_i data fault hdata
    rw [wp_bind, wp_readHost]
    generalize (if sb.st_size = 0 then [] else [.read path]) ++ w'.accesses = l
    have h'' := h'.accesses hkeeps l
    rw [wp_ite]
    split_ifs with hsize
    · exact ⟨⟨data, fault, ⟨n, hdata⟩, hsize, rfl⟩, h''⟩
    · split <;> exact h''.stopped hkeeps

/-- A hash is looked for, unless it has been already. -/
theorem At.wp_queueHash (hkeeps : KeepsRepo cfg hs I J) (h : At cfg hs I done queue hint es frag o w)
    {path : Bytes} {hash : Hash} (hfrom : ∃ sb, HashFrom cfg hs path sb hash) :
    wp (queueHash cfg path hash)
      (fun hbs w' => hbs = queuedHash cfg (done ++ queue) path hash ∧
        At cfg hs I done (queue ++ hbs) hint es frag o w')
      (fun _ => Stopped cfg J) w := by
  have hhas : w.inrepo.has hash = true ↔ hash ∈ (done ++ queue).map Hashable.hash := by
    rw [HashSet.has_iff, h.inrepo, List.mem_reverse]
  rw [queueHash, wp_bind, wp_get, wp_ite, queuedHash]
  -- a hash that is queued or has been copied is not looked for again
  by_cases hin : hash ∈ (done ++ queue).map Hashable.hash
  · rw [if_pos (hhas.mpr hin), if_pos hin, wp_pure, List.append_nil]
    exact ⟨rfl, h⟩
  rw [if_neg (hhas.not.mpr hin), if_neg hin, wp_bind]
  refine wp_mono (wp_prefigure_exists h.asked _) ?_ fun _ w' ho =>
    h.stopped_of_store hkeeps ho.store ho.written
  rintro _ w' ⟨hasked, ho, -⟩
  rw [wp_bind, wp_modify, wp_pure]
  set hb : Hashable := ⟨path, objectPath cfg.repo hash, hash⟩
  refine ⟨rfl, ?_⟩
  have hnotin : hash ∉ w'.inrepo := by
    rw [ho.beside.inrepo, h.inrepo, List.mem_reverse]
    exact hin
  exact {
    repo := hkeeps.queue (hkeeps.congr h.repo (.of_eq ho.store ho.written)) (by exact hin) hfrom
    asked := (hasked.mono fun q hq => by
      rcases hq with ⟨hb', hm, rfl⟩ | rfl
      · exact ⟨hb', List.mem_append_left _ hm, rfl⟩
      · exact ⟨hb, by simp, rfl⟩).congr rfl rfl fun _ _ => rfl
    hps := fun hb' hm => by
      rcases List.mem_append.mp hm with hm | hm
      · exact h.hps hb' hm
      · rw [List.mem_singleton.mp hm]
    inrepo := by
      simp only [HashSet.insert, if_neg hnotin]
      rw [ho.beside.inrepo, h.inrepo]
      simp [hb]
    hidden := fun hw => h.hidden (ho.written ▸ hw)
    names := by
      have := h.names
      rwa [← ho.beside.names] at this
    hints := ho.beside.hints.trans h.hints
    newhints := h.newhints.congr (ho.beside.hintFiles.trans ⟨rfl, rfl⟩)
    path := h.path
    holds := by
      have := h.holds
      rwa [Holds, ← ho.store] at this
    begun := h.begun }

/-! ### One line -/

/-- `e`, about something of kind `k`. -/
abbrev Entry.withKind (e : Entry) (k : Kind) : Entry := { e with kind := k }

/-- What is put for a regular file. -/
theorem At.wp_contentsOf (hkeeps : KeepsRepo cfg hs I J) (h : At cfg hs I done queue hint es frag o w)
    (e₀ : Entry) (htype : e₀.sb.is S_IFREG) :
    wp (contentsOf cfg e₀.path e₀.sb)
      (fun r w' => ∃ k, KindOf cfg hs e₀.path e₀.sb k ∧
        r.1 ++ inodeField e₀.sb = kindText e₀.sb k ∧
        r.2 = (e₀.withKind k).queued cfg (done ++ queue) ∧
        At cfg hs I done (queue ++ r.2) (hint ++ (e₀.withKind k).hint) es frag o w')
      (fun _ => Stopped cfg J) w := by
  rw [contentsOf, wp_ite]
  split_ifs with hsize
  · rw [wp_bind]
    refine wp_mono (h.wp_smallFile hkeeps _ _) ?_ fun _ _ h => h
    rintro bytes w' ⟨⟨data, fault, hread, hlen, rfl⟩, h'⟩
    refine ⟨_, .data htype hsize hread hlen, kindText_data _ _, rfl, ?_⟩
    simpa [Entry.hint] using h'
  · rw [wp_bind]
    refine wp_mono (h.wp_hashOf hkeeps _ _) ?_ fun _ _ h => h
    rintro hash w₁ ⟨hfrom, h₁⟩
    rw [wp_bind]
    refine wp_mono (h₁.wp_putHints hkeeps _) ?_ fun _ _ h => h
    intro _ w₂ h₂
    rw [wp_bind]
    refine wp_mono (h₂.wp_queueHash hkeeps ⟨_, hfrom⟩) ?_ fun _ _ h => h
    rintro hbs w₃ ⟨rfl, h₃⟩
    exact ⟨.sha1 hash, .sha1 htype hsize hfrom, kindText_sha1 _ _, rfl, h₃⟩

theorem At.wp_restoreAtime (hkeeps : KeepsRepo cfg hs I J)
    (h : At cfg hs I done queue hint es frag o w) (path : Bytes) (sb : Stat) :
    wp (restoreAtime cfg path sb) (fun _ w' => At cfg hs I done queue hint es frag o w')
      (fun _ => Stopped cfg J) w := by
  rw [restoreAtime, wp_ite]
  split_ifs
  · refine h.wp_tick hkeeps fun n w' h' => ?_
    split
    · exact h'.stopped hkeeps
    · exact h'.accesses hkeeps _
  · exact h

theorem At.wp_readlink (hkeeps : KeepsRepo cfg hs I J)
    (h : At cfg hs I done queue hint es frag o w) (path : Bytes) :
    wp (readlink cfg path)
      (fun target w' => (∃ n t, (cfg.env n).host.readlink path = .ok t ∧ t.length < MAXLINKSIZE ∧
        target = cstr t) ∧ At cfg hs I done queue hint es frag o w')
      (fun _ => Stopped cfg J) w := by
  rw [readlink]
  refine h.wp_tick hkeeps fun n w' h' => ?_
  split
  · exact h'.stopped hkeeps
  · rename_i target htarget
    rw [wp_ite]
    split_ifs with hlen
    · exact h'.stopped hkeeps
    · exact ⟨⟨n, target, htarget, Nat.lt_of_not_le hlen, rfl⟩, h'⟩

theorem At.wp_entersDir (hkeeps : KeepsRepo cfg hs I J)
    (h : At cfg hs I done queue hint es frag o w) {dir name : Bytes} {sb : Stat}
    (htype : sb.is S_IFDIR) :
    wp (entersDir cfg (fullname cfg.root (localname dir name)))
      (fun enters w' => Enters cfg dir name sb (if enters then [localname dir name] else []) ∧
        At cfg hs I done queue hint es frag o w')
      (fun _ => Stopped cfg J) w := by
  rw [entersDir, wp_ite]
  split_ifs with hcross
  · exact ⟨.crossfs htype hcross, h⟩
  · refine h.wp_tick hkeeps fun n w' h' => ?_
    split
    · exact h'.stopped hkeeps
    · rename_i mount hmount
      have henters : Enters cfg dir name sb _ := .onefs htype (by simpa using hcross) hmount
      refine ⟨?_, h'⟩
      cases mount <;> exact henters

/-- The line goes on. -/
theorem At.wp_putMore (hkeeps : KeepsRepo cfg hs I J) (ho : Outside cfg)
    (h : At cfg hs I done queue hint es frag o w) (hfrag : frag.head? = some 110 ∧ 10 ∉ frag)
    {piece : Bytes} (hpiece : 10 ∉ piece) :
    wp (putIndex cfg o piece) (fun o' w' => At cfg hs I done queue hint es (frag ++ piece) o' w')
      (fun _ => Stopped cfg J) w :=
  h.wp_putIndex hkeeps ho piece (List.append_assoc _ _ _) (.append hfrag hpiece)

/-- The line is finished. -/
theorem At.wp_endLine (hkeeps : KeepsRepo cfg hs I J) (ho : Outside cfg)
    (h : At cfg hs I done queue hint es frag o w) (e : Entry) {piece : Bytes}
    (hline : frag ++ piece = e.line ++ [10]) :
    wp (putIndex cfg o piece) (fun o' w' => At cfg hs I done queue hint (es ++ [e]) [] o' w')
      (fun _ => Stopped cfg J) w := by
  refine h.wp_putIndex hkeeps ho piece ?_ (.inl rfl)
  rw [List.append_assoc, hline]
  simp

theorem hintText_append (es : List Entry) (e : Entry) :
    hintText (es ++ [e]) = hintText es ++ e.hint := by
  simp [hintText]

/-- The generic details of `e`. -/
def Entry.generic (e : Entry) : Bytes := genericDetails e.relname e.uid e.gid e.sb

theorem Entry.begun_generic (e : Entry) : e.generic.head? = some 110 ∧ 10 ∉ e.generic :=
  begun_genericDetails _ _ _ _

/-- All that is behind the generic details is put at once. -/
theorem At.wp_endKind (hkeeps : KeepsRepo cfg hs I J) (ho : Outside cfg) (e : Entry)
    (h : At cfg hs I done queue hint es e.generic o w) {k : Kind} {piece : Bytes}
    (hpiece : piece = kindText e.sb k ++ [10]) :
    wp (putIndex cfg o piece)
      (fun o' w' => At cfg hs I done queue hint (es ++ [e.withKind k]) [] o' w')
      (fun _ => Stopped cfg J) w := by
  refine h.wp_endLine hkeeps ho (e.withKind k) ?_
  rw [hpiece, Entry.line_eq_kindText, List.append_assoc]
  rfl

/-- The rest of the line of a regular file. -/
theorem At.wp_regularFile (hkeeps : KeepsRepo cfg hs I J) (ho : Outside cfg) (e : Entry)
    (htype : e.sb.is S_IFREG) {p : Progress}
    (h : At cfg hs I done queue (hintText es) es e.generic p.index w) :
    wp (do
        let (text, hashables) ← contentsOf cfg e.path e.sb
        let index ← putIndex cfg p.index text
        let index ← putIndex cfg index (inodeField e.sb)
        let index ← putIndex cfg index (lit "\n")
        restoreAtime cfg e.path e.sb
        return { p with index, hashables := p.hashables ++ hashables })
      (fun p' w' => ∃ k, KindOf cfg hs e.path e.sb k ∧ p' = { p with
          index := p'.index
          hashables := p.hashables ++ (e.withKind k).queued cfg (done ++ queue) } ∧
        At cfg hs I done (queue ++ (e.withKind k).queued cfg (done ++ queue))
          (hintText (es ++ [e.withKind k])) (es ++ [e.withKind k]) [] p'.index w')
      (fun _ => Stopped cfg J) w := by
  rw [wp_bind]
  refine wp_mono (h.wp_contentsOf hkeeps e htype) ?_ fun _ _ h => h
  rintro ⟨text, hbs⟩ w₁ ⟨k, hk, htext, hqueued, h₁⟩
  -- the line is put in three pieces; the newline is the last of them
  have hnl := newline_not_mem_kindText e.sb k
  rw [← htext, List.mem_append, not_or] at hnl
  dsimp only at htext hqueued hnl h₁ ⊢
  rw [wp_bind]
  refine wp_mono (h₁.wp_putMore hkeeps ho e.begun_generic hnl.1) ?_ fun _ _ h => h
  intro index₂ w₂ h₂
  have hfrag : (e.generic ++ text).head? = some 110 ∧ 10 ∉ e.generic ++ text := by
    refine ⟨?_, by simp [e.begun_generic.2, hnl.1]⟩
    rw [List.head?_append, e.begun_generic.1]
    rfl
  rw [wp_bind]
  refine wp_mono (h₂.wp_putMore hkeeps ho hfrag hnl.2) ?_ fun _ _ h => h
  intro index₃ w₃ h₃
  rw [wp_bind]
  refine wp_mono (h₃.wp_endLine hkeeps ho (e.withKind k) ?_) ?_ fun _ _ h => h
  · rw [List.append_assoc e.generic, htext, Entry.line_eq_kindText]
    rfl
  intro index₄ w₄ h₄
  rw [wp_bind]
  refine wp_mono (h₄.wp_restoreAtime hkeeps _ _) ?_ fun _ _ h => h
  intro _ w₅ h₅
  -- the entry is whole, and what it needs is in the queue
  subst hqueued
  refine ⟨k, hk, rfl, ?_⟩
  rw [hintText_append]
  exact h₅

/-- What one turn of the loop over a directory has added. -/
structure Turned (cfg : Config) (hs : Option (List (Bytes × Hint)))
    (I : List Hashable → List Hashable → World → Prop) (done queue : List Hashable)
    (es : List Entry) (dir name : Bytes) (sb : Stat) (p p' : Progress) (w' : World) (e : Entry)
    (entered : List Bytes) : Prop where
  entry : EntryOf cfg hs dir p.first name sb e
  enters : Enters cfg dir name sb entered
  first : p'.first = false
  hashables : p'.hashables = p.hashables ++ e.queued cfg (done ++ queue)
  dirs : p'.dirs = p.dirs ++ entered
  now : At cfg hs I done (queue ++ e.queued cfg (done ++ queue)) (hintText (es ++ [e])) (es ++ [e]) []
    p'.index w'

theorem not_is_of_is {sb : Stat} {t t' : UInt32} (h : sb.is t = true) (hne : t ≠ t') :
    ¬ sb.is t' = true := by
  rw [Stat.is, decide_eq_true_eq] at h ⊢
  exact fun h' => hne (h.symm.trans h')

/-- An entry that has only a line. -/
theorem At.turned {dir name : Bytes} {p : Progress} {e : Entry} {k : Kind} {index : OFile}
    {dirs entered : List Bytes} (hentry : EntryOf cfg hs dir p.first name e.sb (e.withKind k))
    (henters : Enters cfg dir name e.sb entered) (hdirs : dirs = p.dirs ++ entered)
    (hnone : ∀ h, k ≠ .sha1 h)
    (h : At cfg hs I done queue (hintText es) (es ++ [e.withKind k]) [] index w) :
    Turned cfg hs I done queue es dir name e.sb p ⟨index, false, p.hashables, dirs⟩ w
      (e.withKind k) entered := by
  have hqueued : (e.withKind k).queued cfg (done ++ queue) = [] := by
    cases k with
    | sha1 hash => exact absurd rfl (hnone hash)
    | _ => rfl
  have hhint : (e.withKind k).hint = [] := by
    cases k with
    | sha1 hash => exact absurd rfl (hnone hash)
    | _ => rfl
  refine ⟨hentry, henters, rfl, ?_, hdirs, ?_⟩
  · rw [hqueued, List.append_nil]
  · rw [hqueued, List.append_nil, hintText_append, hhint, List.append_nil]
    exact h

/-- **One file: one entry, and its line.** -/
theorem At.wp_backupFile (hkeeps : KeepsRepo cfg hs I J) (ho : Outside cfg) {p : Progress}
    (h : At cfg hs I done queue (hintText es) es [] p.index w) {dir name : Bytes}
    {files : List (Bytes × Stat)} (hknown : (statOf files name).known = true) :
    wp (backupFile cfg dir files p name)
      (fun p' w' => ∃ e entered,
        Turned cfg hs I done queue es dir name (statOf files name) p p' w' e entered)
      (fun _ => Stopped cfg J) w := by
  rw [backupFile, wp_bind]
  refine wp_mono (h.wp_uid2string hkeeps _) ?_ fun _ _ h => h
  rintro uid w₁ ⟨huid, h₁⟩
  rw [wp_bind]
  refine wp_mono (h₁.wp_gid2string hkeeps _) ?_ fun _ _ h => h
  rintro gid w₂ ⟨hgid, h₂⟩
  set e : Entry := ⟨fullname cfg.root (localname dir name), relname p.first (localname dir name),
    statOf files name, uid, gid, .dir⟩ with he
  have hentry : ∀ {k : Kind}, KindOf cfg hs e.path e.sb k →
      EntryOf cfg hs dir p.first name e.sb (e.withKind k) := fun hk =>
    ⟨rfl, rfl, rfl, huid, hgid, hk⟩
  rw [wp_bind]
  refine wp_mono (h₂.wp_putIndex hkeeps ho e.generic (by rw [List.append_nil])
    (.inr e.begun_generic)) ?_ fun _ _ h => h
  intro index w₃ h₃
  rw [wp_ite]
  split
  · -- a regular file
    rename_i hreg
    refine wp_mono (h₃.wp_regularFile hkeeps ho e hreg (p := { p with index, first := false })) ?_
      fun _ _ h => h
    rintro p' w₄ ⟨k, hk, hp', h₄⟩
    refine ⟨e.withKind k, [], hentry hk, .file (not_is_of_is hreg (by decide)), ?_, ?_, ?_, h₄⟩
    · rw [hp']
    · rw [hp']
    · rw [hp', List.append_nil]
  rw [wp_ite]
  split
  · -- a directory
    rename_i hdir
    rw [wp_bind]
    refine wp_mono (h₃.wp_endKind hkeeps ho e (kindText_dir e.sb)) ?_ fun _ _ h => h
    intro index₄ w₄ h₄
    rw [wp_bind]
    refine wp_mono (h₄.wp_entersDir hkeeps hdir) ?_ fun _ _ h => h
    rintro enters w₅ ⟨henters, h₅⟩
    exact ⟨_, _, h₅.turned (hentry (.dir hdir)) henters rfl (by simp)⟩
  rw [wp_ite]
  split
  · -- a link
    rename_i hlink
    rw [wp_bind]
    refine wp_mono (h₃.wp_readlink hkeeps _) ?_ fun _ _ h => h
    rintro _ w₄ ⟨⟨n, target, htarget, hlen, rfl⟩, h₄⟩
    rw [wp_bind]
    refine wp_mono (h₄.wp_endKind hkeeps ho e (kindText_link e.sb _)) ?_ fun _ _ h => h
    intro index₅ w₅ h₅
    exact ⟨_, [], h₅.turned (hentry (.link hlink htarget hlen))
      (.file (not_is_of_is hlink (by decide))) (List.append_nil _).symm (by simp)⟩
  rw [wp_ite]
  split
  · -- a device
    rename_i hdev
    have hfile : Enters cfg dir name e.sb [] := by
      rcases hdev with h | h
      · exact .file (not_is_of_is h (by decide))
      · exact .file (not_is_of_is h (by decide))
    obtain ⟨type, htype, hlit, hk⟩ : ∃ type,
        (if e.sb.is S_IFCHR then lit "chr" else lit "blk") = type ∧ Literal type ∧
          KindOf cfg hs e.path e.sb (.dev type) := by
      by_cases hchr : e.sb.is S_IFCHR
      · exact ⟨_, if_pos hchr, by decide +kernel, .chr hchr⟩
      · exact ⟨_, if_neg hchr, by decide +kernel, .blk (hdev.resolve_left hchr)⟩
    rw [htype, wp_bind]
    refine wp_mono (h₃.wp_endKind hkeeps ho e (kindText_dev e.sb hlit)) ?_ fun _ _ h => h
    intro index₄ w₄ h₄
    exact ⟨_, [], h₄.turned (hentry hk) hfile (List.append_nil _).symm (by simp)⟩
  rw [wp_ite]
  split
  · -- a socket
    rename_i hsock
    rw [wp_bind]
    refine wp_mono (h₃.wp_endKind hkeeps ho e (kindText_socket e.sb)) ?_ fun _ _ h => h
    intro index₄ w₄ h₄
    exact ⟨_, [], h₄.turned (hentry (.socket hsock)) (.file (not_is_of_is hsock (by decide)))
      (List.append_nil _).symm (by simp)⟩
  · -- only known types are listed
    exfalso
    simp only [Stat.known, List.any_cons, List.any_nil, Bool.or_eq_true] at hknown
    tauto

end Hbackup
