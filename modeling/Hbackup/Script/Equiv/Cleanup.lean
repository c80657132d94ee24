import Hbackup.Lib.ProgramLogic
import Hbackup.Script.Cleanup

/-!
# `hbackup --cleanup` is safe

Reading an index changes the table and the number of warnings in one direction only (`Shrinks`).  If
`parse_index` returns, there was no warning: every line of the index has reached `keep` or is an end
marker, and behind the first of these are only others (`Passes`).  What is printed in the end is what
the table still holds, and its keys are the base names of its paths (`Records`).
-/

namespace Hbackup.Script

open ProgramLogic

/-! ### Index files -/

/-- The end marker. -/
def endLine : Bytes := lit "[end]\n"

/-- Reading the lines gives no warning and no error of the parser; `seen` tells if there was an end
marker. -/
def Passes : Bool → List Bytes → Prop
  | seen, [] => seen = true
  | seen, line :: rest =>
    if line = endLine then Passes true rest
    else seen = false ∧ line.getLast? = some 10 ∧ (∃ details, parse_qs line.dropLast = .ok details) ∧
      Passes seen rest

/-- A line names the hash. -/
def NamedBy (line hash : Bytes) : Prop :=
  line ≠ endLine ∧ ∃ details, parse_qs line.dropLast = .ok details ∧
    details.lookup HASH_NAME = some hash

/-- What is wrong with an index file. -/
inductive Damaged (text : Bytes) : Prop
  | noEnd (h : endLine ∉ linesOf text)
  | noNewline {line : Bytes} (h : line ∈ linesOf text) (hline : line.getLast? ≠ some 10)
  | rejected {line : Bytes} {e : PyError} (h : line ∈ linesOf text) (hne : line ≠ endLine)
      (hline : parse_qs line.dropLast = .error e)
  | trailing {before after : List Bytes} {line : Bytes}
      (h : linesOf text = before ++ endLine :: after) (hline : line ∈ after) (hne : line ≠ endLine)

/-- Behind an end marker there are end markers only. -/
theorem Passes.trailing : ∀ {lines : List Bytes}, Passes true lines → ∀ line ∈ lines, line = endLine
  | [], _ => by simp
  | head :: rest, h => by
    intro line hline
    rw [Passes] at h
    by_cases hhead : head = endLine
    · rw [if_pos hhead] at h
      rcases List.mem_cons.mp hline with rfl | hline
      · exact hhead
      · exact h.trailing line hline
    · rw [if_neg hhead] at h
      cases h.1

theorem Passes.after {before after : List Bytes} : ∀ {seen : Bool},
    Passes seen (before ++ endLine :: after) → Passes true after := by
  induction before with
  | nil =>
    intro seen h
    rwa [List.nil_append, Passes, if_pos rfl] at h
  | cons line before ih =>
    intro seen h
    rw [List.cons_append, Passes] at h
    split at h
    · exact ih h
    · exact ih h.2.2.2

theorem Passes.line {seen : Bool} {lines : List Bytes} (h : Passes seen lines) {line : Bytes}
    (hline : line ∈ lines) (hne : line ≠ endLine) :
    line.getLast? = some 10 ∧ ∃ details, parse_qs line.dropLast = .ok details := by
  induction lines generalizing seen with
  | nil => cases hline
  | cons head rest ih =>
    rw [Passes] at h
    rcases List.mem_cons.mp hline with rfl | hline
    · rw [if_neg hne] at h
      exact ⟨h.2.1, h.2.2.1⟩
    · split at h
      · exact ih h hline
      · exact ih h.2.2.2 hline

theorem Passes.seen {lines : List Bytes} (h : Passes false lines) : endLine ∈ lines := by
  induction lines with
  | nil => cases h
  | cons head rest ih =>
    rw [Passes] at h
    by_cases hhead : head = endLine
    · rw [hhead]
      exact List.mem_cons_self
    · rw [if_neg hhead] at h
      exact List.mem_cons_of_mem _ (ih h.2.2.2)

/-- A damaged index does not pass. -/
theorem Damaged.not_passes {text : Bytes} (h : Damaged text) : ¬ Passes false (linesOf text) := by
  intro hp
  cases h with
  | noEnd h => exact h hp.seen
  | @noNewline line h hline =>
    by_cases hend : line = endLine
    · rw [hend] at hline
      exact hline rfl
    · exact hline (hp.line h hend).1
  | rejected h hne hline =>
    obtain ⟨details, hok⟩ := (hp.line h hne).2
    rw [hline] at hok
    cases hok
  | trailing h hline hne =>
    rw [h] at hp
    exact hne (hp.after.trailing _ hline)

/-! ### Reading an index -/

/-- Entries leave the table, and warnings are counted. -/
structure Shrinks (g g' : Globals) : Prop where
  warnings : g.warnings ≤ g'.warnings
  files : g'.files ⊆ g.files
  stdout : g'.stdout = g.stdout

instance : Std.Refl Shrinks := ⟨fun _ => ⟨le_refl _, List.Subset.refl _, rfl⟩⟩

instance : IsTrans Globals Shrinks := ⟨fun _ _ _ h h' =>
  ⟨h.warnings.trans h'.warnings, List.Subset.trans h'.files h.files, h'.stdout.trans h.stdout⟩⟩

theorem shrinks_warn : Frames Shrinks warn :=
  Frames.modify fun _ => ⟨Nat.le_succ _, List.Subset.refl _, rfl⟩

theorem shrinks_keep (details : Pairs) : Frames Shrinks (keep details) := by
  rw [keep]
  cases details.lookup HASH_NAME with
  | none => exact Frames.pure _
  | some hash => exact Frames.modify fun _ => ⟨le_refl _, List.filter_subset_self _, rfl⟩

theorem shrinks_handle {handler : Pairs → Py Unit} (hh : ∀ details, Frames Shrinks (handler details))
    (directory : Option Bytes) (details : Pairs) : Frames Shrinks (handle handler directory details) := by
  rw [handle]
  cases details.lookup (lit "name") with
  | none => exact Frames.throw _
  | some name =>
    apply Frames.ite
    · exact Frames.bind (hh _) fun _ => Frames.pure _
    · exact Frames.bind (hh _) fun _ => Frames.pure _

theorem shrinks_parse_details (line : Bytes) : Frames Shrinks (parse_details line) := by
  rw [parse_details]
  apply Frames.ite
  · exact Frames.bind shrinks_warn fun _ => Frames.pure _
  · cases parse_qs line.dropLast with
    | error e => exact Frames.throw e
    | ok details => exact Frames.pure _

theorem shrinks_parseLines {handler : Pairs → Py Unit}
    (hh : ∀ details, Frames Shrinks (handler details)) :
    ∀ (lines : List Bytes) (p : Parsing), Frames Shrinks (parseLines handler lines p)
  | [], p => Frames.pure _
  | line :: rest, p => by
    rw [parseLines]
    apply Frames.ite (shrinks_parseLines hh rest _)
    apply Frames.ite
    · exact Frames.bind shrinks_warn fun _ => Frames.pure _
    · apply Frames.bind (shrinks_parse_details line)
      intro details
      cases details with
      | none => exact shrinks_parseLines hh rest _
      | some details =>
        exact Frames.bind (shrinks_handle hh _ _) fun _ => shrinks_parseLines hh rest _

theorem shrinks_parse_index {handler : Pairs → Py Unit}
    (hh : ∀ details, Frames Shrinks (handler details)) (text : Bytes) :
    Frames Shrinks (parse_index handler text) := by
  rw [parse_index]
  apply Frames.bind (shrinks_parseLines hh _ _)
  intro p
  split
  · exact Frames.bind shrinks_warn fun _ =>
      Frames.get_bind fun _ => Frames.ite (Frames.throw _) (Frames.pure _)
  · exact Frames.get_bind fun _ => Frames.ite (Frames.throw _) (Frames.pure _)

/-! ### What an index takes out of the table -/

/-- No file is recorded under a hash that one of the lines names. -/
def Kept (lines : List Bytes) (g : Globals) : Prop :=
  ∀ line ∈ lines, ∀ hash, NamedBy line hash → ∀ f ∈ g.files, f.1 ≠ hash

theorem Kept.mono {lines : List Bytes} {g g' : Globals} (h : Kept lines g) (hg : Shrinks g g') :
    Kept lines g' := fun line hline hash hnamed f hf =>
  h line hline hash hnamed f (hg.files hf)

theorem lookup_setName (details : Pairs) (name : Bytes) :
    (setName details name).lookup HASH_NAME = details.lookup HASH_NAME := by
  have hne : (HASH_NAME == lit "name") = false := by decide
  rw [setName, List.lookup_cons, hne]
  show (details.filter (·.1 ≠ lit "name")).lookup HASH_NAME = details.lookup HASH_NAME
  induction details with
  | nil => rfl
  | cons d details ih =>
    obtain ⟨k, v⟩ := d
    rw [List.filter_cons]
    by_cases hk : k = lit "name"
    · rw [if_neg (by simpa using hk), ih, hk, List.lookup_cons, hne]
    · rw [if_pos (by simpa using hk), List.lookup_cons, List.lookup_cons, ih]

/-- `keep` takes the hash of the details out of the table. -/
theorem wp_keep (details : Pairs) (g : Globals) :
    wp (keep details) (fun _ g' => ∀ hash, details.lookup HASH_NAME = some hash →
      ∀ f ∈ g'.files, f.1 ≠ hash) (fun _ _ => True) g := by
  rw [keep]
  cases hl : details.lookup HASH_NAME with
  | none =>
    intro hash h
    cases h
  | some hash =>
    intro hash' h f hf
    rw [← Option.some.inj h]
    simpa using (List.mem_filter.mp hf).2

theorem wp_handle_keep (directory : Option Bytes) (details : Pairs) (g : Globals) :
    wp (handle keep directory details) (fun _ g' => ∀ hash, details.lookup HASH_NAME = some hash →
      ∀ f ∈ g'.files, f.1 ≠ hash) (fun _ _ => True) g := by
  rw [handle]
  cases details.lookup (lit "name") with
  | none => trivial
  | some name =>
    rw [wp_ite]
    split
    · rw [wp_bind, ← lookup_setName details (inDirectory directory (name.drop 2))]
      exact wp_keep _ g
    · rw [wp_bind]
      exact wp_keep _ g

/-- A loop that has warned of nothing and has met an end marker. -/
theorem wp_parseLines_keep (lines : List Bytes) (p : Parsing) (g : Globals) :
    wp (parseLines keep lines p) (fun q g' => g'.warnings = g.warnings → q.seen_end = true →
      Passes p.seen_end lines ∧ Kept lines g') (fun _ _ => True) g := by
  induction lines generalizing p g with
  | nil =>
    intro _ hseen
    exact ⟨hseen, fun line hline => by cases hline⟩
  | cons line rest ih =>
    rw [parseLines, wp_ite]
    split
    · have hend : line = endLine := ‹_›
      apply wp_mono (ih _ g)
      · intro q g' hrest hw hseen
        obtain ⟨hpass, hkept⟩ := hrest hw hseen
        refine ⟨by rw [Passes, if_pos hend]; exact hpass, ?_⟩
        intro l hl hash hnamed
        rcases List.mem_cons.mp hl with rfl | hl
        · exact absurd hend hnamed.1
        · exact hkept l hl hash hnamed
      · exact fun _ _ h => h
    have hend : line ≠ endLine := ‹_›
    rw [wp_ite]
    split
    · -- behind the end marker
      intro hw
      have : g.warnings + 1 = g.warnings := hw
      omega
    rename_i hseen
    rw [parse_details, wp_bind, wp_ite]
    split
    · -- no newline: the warning stays to the end
      apply wp_mono (shrinks_parseLines shrinks_keep rest p { g with warnings := g.warnings + 1 })
      · intro q g' hg' hw
        have : g.warnings + 1 ≤ g'.warnings := hg'.warnings
        omega
      · exact fun _ _ _ => trivial
    rename_i hnewline
    cases hparse : parse_qs line.dropLast with
    | error e => trivial
    | ok details =>
      show wp (handle keep p.directory details >>= _) _ _ g
      rw [wp_bind]
      apply wp_mono (wp_and (shrinks_handle shrinks_keep p.directory details g)
        (wp_handle_keep p.directory details g))
      · rintro directory g₁ ⟨hg₁, hout⟩
        apply wp_mono (wp_and (shrinks_parseLines shrinks_keep rest { p with directory } g₁)
          (ih { p with directory } g₁))
        · rintro q g' ⟨hg', hrest⟩ hw hq
          have hw₁ := hg₁.warnings
          have hw' := hg'.warnings
          obtain ⟨hpass, hkept⟩ := hrest (by omega) hq
          constructor
          · rw [Passes, if_neg hend]
            exact ⟨by simpa using hseen, not_not.mp hnewline, ⟨details, hparse⟩, hpass⟩
          · intro l hl hash hnamed f hf
            rcases List.mem_cons.mp hl with rfl | hl
            · obtain ⟨-, details', hparse', hlookup⟩ := hnamed
              rw [hparse] at hparse'
              cases hparse'
              exact hout hash hlookup f (hg'.files hf)
            · exact hkept l hl hash hnamed f hf
        · exact fun _ _ _ => trivial
      · exact fun _ _ _ => trivial

/-- The warnings end the script. -/
theorem wp_check {Q : Unit → Globals → Prop} {msg : String} {g : Globals}
    (h : g.warnings = 0 → Q ⟨⟩ g) :
    wp (get >>= fun g => if 0 < g.warnings then fatal msg else pure ⟨⟩ : Py Unit) Q (fun _ _ => True) g := by
  rw [wp_bind, wp_get, wp_ite]
  split
  · trivial
  · apply h
    omega

/-- **An index that has been read**: it passes, and no file it names is in the table any more. -/
theorem wp_parse_index_keep (text : Bytes) (g : Globals) :
    wp (parse_index keep text) (fun _ g' => Passes false (linesOf text) ∧ Kept (linesOf text) g')
      (fun _ _ => True) g := by
  rw [parse_index, wp_bind]
  apply wp_mono (wp_and (shrinks_parseLines shrinks_keep (linesOf text) {} g)
    (wp_parseLines_keep (linesOf text) {} g))
  · rintro q g' ⟨hg', hq⟩
    split
    · -- no end marker: this is one warning
      show wp (warn >>= fun _ => get >>= fun g => if 0 < g.warnings then fatal _ else pure ⟨⟩) _ _ g'
      rw [wp_bind, warn, wp_modify]
      apply wp_check
      intro hzero
      cases hzero
    · rename_i hseen
      apply wp_check
      intro hzero
      have hle := hg'.warnings
      exact hq (by omega) (by simpa using hseen)
  · exact fun _ _ _ => trivial

/-! ### Scanning the repository -/

/-- Files are recorded under their base names, and nothing is printed. -/
structure Records (g g' : Globals) : Prop where
  basenames : (∀ f ∈ g.files, basename f.2 = f.1) → ∀ f ∈ g'.files, basename f.2 = f.1
  stdout : g'.stdout = g.stdout

instance : Std.Refl Records := ⟨fun _ => ⟨id, rfl⟩⟩

instance : IsTrans Globals Records := ⟨fun _ _ _ h h' =>
  ⟨fun hg => h'.basenames (h.basenames hg), h'.stdout.trans h.stdout⟩⟩

/-- Behind a slash, or at the beginning, a name is found whole. -/
theorem basename_append {name : Bytes} (h : 47 ∉ name) {path : Bytes}
    (hpath : path = [] ∨ path.getLast? = some 47) : basename (path ++ name) = name := by
  have hall : ∀ c ∈ name.reverse, decide (c ≠ 47) = true := by
    intro c hc
    simp only [decide_eq_true_eq]
    rintro rfl
    exact h (List.mem_reverse.mp hc)
  rw [basename, List.reverse_append, List.takeWhile_append_of_pos hall]
  rcases hpath with rfl | hlast
  · simp
  · obtain ⟨path, rfl⟩ := List.getLast?_eq_some_iff.mp hlast
    simp

/-- What is in a directory is recorded under its name. -/
theorem basename_join (dir : Bytes) (f : FileName) : basename (join dir [f.val]) = f.val := by
  obtain ⟨name, hne, hslash⟩ := f
  have hhead : name.head? ≠ some 47 := fun h => hslash (List.mem_of_head? h)
  show basename (join1 dir name) = name
  rw [join1, if_neg hhead]
  split
  · rename_i hdir
    exact basename_append hslash hdir
  · exact basename_append hslash (.inr List.getLast?_concat)

theorem records_record {f fn : Bytes} (h : basename fn = f) : Frames Records (record f fn) := by
  apply Frames.modify
  intro g
  refine ⟨fun hg p hp => ?_, rfl⟩
  rcases List.mem_cons.mp hp with rfl | hp
  · exact h
  · exact hg p (List.mem_filter.mp hp).1

mutual

theorem records_scanEntries (dir : Bytes) :
    ∀ entries : List (FileName × Node), Frames Records (scanEntries dir entries)
  | [] => Frames.pure _
  | (f, node) :: entries => by
    rw [scanEntries]
    exact Frames.bind (records_scanEntry (basename_join dir f) node) fun _ =>
      records_scanEntries dir entries

theorem records_scanEntry {fn f : Bytes} (h : basename fn = f) :
    ∀ node : Node, Frames Records (scanEntry fn f node)
  | .dir entries => by
    rw [scanEntry]
    exact records_scanEntries fn entries
  | .closed => Frames.throw _
  | .file => records_record h
  | .other => Frames.modify fun _ => ⟨id, rfl⟩

end

theorem records_scan_repo (dir : Bytes) (node : Node) : Frames Records (scan_repo dir node) := by
  cases node with
  | dir entries =>
    rw [scan_repo]
    exact records_scanEntries dir entries
  | file => exact Frames.throw _
  | other => exact Frames.throw _
  | closed => exact Frames.throw _

/-! ### The run -/

/-- What `hbackup --cleanup` prints. -/
def printed (repo : Bytes) (node : Node) (text : Bytes → Except PyError Bytes) (argv : List Bytes) :
    List Bytes :=
  (stateAfter (cleanup repo node text argv) {}).stdout

/-- What may have been printed: the index passes, and the paths are not of files that it names. -/
structure Safe (text : Bytes) (paths : List Bytes) : Prop where
  passes : paths ≠ [] → Passes false (linesOf text)
  kept : ∀ path ∈ paths, ∀ line ∈ linesOf text, ¬ NamedBy line (basename path)

theorem safe_nil (text : Bytes) : Safe text [] := ⟨fun h => absurd rfl h, fun _ h => by cases h⟩

/-- While the indexes are read: those behind us pass, and the table is without the files they name. -/
structure Reading (text : Bytes → Except PyError Bytes) (behind : List Bytes) (g : Globals) : Prop where
  basenames : ∀ f ∈ g.files, basename f.2 = f.1
  stdout : g.stdout = []
  passes : ∀ i ∈ behind, ∀ t, text i = .ok t → Passes false (linesOf t) ∧ Kept (linesOf t) g

/-- One more index. -/
theorem Reading.index {text : Bytes → Except PyError Bytes} {behind : List Bytes} {g : Globals}
    (h : Reading text behind g) {i t : Bytes} (ht : text i = .ok t) :
    wp (parse_index keep t) (fun _ => Reading text (behind ++ [i])) (fun _ g' => g'.stdout = []) g := by
  apply wp_mono (wp_and (shrinks_parse_index shrinks_keep t g) (wp_parse_index_keep t g))
  · rintro _ g' ⟨hg', hpass⟩
    constructor
    · exact fun f hf => h.basenames f (hg'.files hf)
    · rw [hg'.stdout, h.stdout]
    · intro j hj tj htj
      rcases List.mem_append.mp hj with hj | hj
      · obtain ⟨hp, hk⟩ := h.passes j hj tj htj
        exact ⟨hp, hk.mono hg'⟩
      · rw [List.mem_singleton.mp hj, ht] at htj
        cases htj
        exact hpass
  · rintro _ g' ⟨hg', -⟩
    rw [hg'.stdout, h.stdout]

/-- The table is printed. -/
theorem wp_print (g : Globals) (E : PyError → Globals → Prop) :
    wp (g.files.forM fun f => modify fun g => { g with stdout := g.stdout ++ [f.2] } : Py Unit)
      (fun _ g' => g'.stdout = g.stdout ++ g.files.map Prod.snd) E g := by
  apply wp_forM (fun pre (g' : Globals) => g'.stdout = g.stdout ++ pre.map Prod.snd)
  · intro pre f post g' _ hg'
    show g'.stdout ++ [f.2] = _
    rw [hg', List.map_append, List.append_assoc]
    rfl
  · exact (List.append_nil _).symm

theorem wp_cleanup (repo : Bytes) (node : Node) (text : Bytes → Except PyError Bytes)
    (argv : List Bytes) :
    wp (cleanup repo node text argv)
      (fun _ g => ∀ i ∈ argv, ∀ t, text i = .ok t → Safe t g.stdout) (fun _ g => g.stdout = []) {} := by
  rw [cleanup, wp_ite]
  split
  · rfl
  rw [wp_bind]
  apply wp_mono (records_scan_repo (join repo [lit "sha1"]) node {})
  · intro _ g hg
    have hstart : Reading text [] g :=
      ⟨hg.basenames fun f hf => (by cases hf), hg.stdout, fun i hi => (by cases hi)⟩
    rw [wp_bind]
    apply wp_mono (wp_forM (Reading text) _ hstart)
    · intro _ g hg
      rw [wp_bind, wp_get]
      apply wp_mono (wp_print g _)
      · intro _ g' hg' i hi t ht
        obtain ⟨hpass, hkept⟩ := hg.passes i hi t ht
        rw [hg', hg.stdout, List.nil_append]
        refine ⟨fun _ => hpass, fun path hpath line hline hnamed => ?_⟩
        obtain ⟨f, hf, rfl⟩ := List.mem_map.mp hpath
        exact hkept line hline _ hnamed f hf (hg.basenames f hf).symm
      · exact fun _ _ h => h
    · exact fun _ _ h => h
    · intro behind i ahead g _ hg
      cases ht : text i with
      | error e => exact hg.stdout
      | ok t => exact hg.index ht
  · exact fun _ _ hg => hg.stdout

theorem printed_safe (repo : Bytes) (node : Node) {text : Bytes → Except PyError Bytes}
    {argv : List Bytes} {i t : Bytes} (hi : i ∈ argv) (ht : text i = .ok t) :
    Safe t (printed repo node text argv) := by
  have hrun : wp (cleanup repo node text argv)
      (fun _ g => ∀ i ∈ argv, ∀ t, text i = .ok t → Safe t g.stdout)
      (fun _ g => ∀ i ∈ argv, ∀ t, text i = .ok t → Safe t g.stdout) {} := by
    apply wp_mono (wp_cleanup repo node text argv)
    · exact fun _ _ h => h
    · intro _ g hg i _ t _
      rw [hg]
      exact safe_nil t
  exact (wp_stateAfter _ _ _).mp hrun i hi t ht

/-- **`hbackup --cleanup` is safe**, whatever is in the repository and in the indexes: no printed path is
of a file that an index names, and with a damaged index there is none at all. -/
theorem cleanup_safe (repo : Bytes) (node : Node) (text : Bytes → Except PyError Bytes)
    (argv : List Bytes) :
    (∀ path ∈ printed repo node text argv, ∀ i ∈ argv, ∀ t, text i = .ok t →
      ∀ line ∈ linesOf t, line ≠ endLine → ∀ details, parse_qs line.dropLast = .ok details →
        details.lookup HASH_NAME ≠ some (basename path)) ∧
    ((∃ i ∈ argv, ∃ t, text i = .ok t ∧ Damaged t) → printed repo node text argv = []) := by
  constructor
  · intro path hpath i hi t ht line hline hend details hparse hlookup
    exact (printed_safe repo node hi ht).kept path hpath line hline ⟨hend, details, hparse, hlookup⟩
  · rintro ⟨i, hi, t, ht, hdamaged⟩
    by_contra hne
    exact hdamaged.not_passes ((printed_safe repo node hi ht).passes hne)

/-- One file in the repository. -/
def loneFile : Node := .dir [(⟨lit "0a", by decide⟩, .file)]

/-- An end marker behind the end marker is not data. -/
theorem not_cleanup_silent : ¬ ∀ (repo : Bytes) (node : Node) (text : Bytes → Except PyError Bytes)
    (argv : List Bytes), (∃ i ∈ argv, ∃ t before after, text i = .ok t ∧
      linesOf t = before ++ endLine :: after ∧ after ≠ []) → printed repo node text argv = [] := by
  intro h
  have hprinted : printed (lit "r") loneFile (fun _ => .ok (lit "[end]\n[end]\n")) [lit "i"] =
      [lit "r/sha1/0a"] := by decide
  have hnone := h (lit "r") loneFile (fun _ => .ok (lit "[end]\n[end]\n")) [lit "i"]
    ⟨lit "i", List.mem_singleton_self _, _, [], [endLine], rfl, by decide, by simp⟩
  rw [hprinted] at hnone
  cases hnone

end Hbackup.Script
