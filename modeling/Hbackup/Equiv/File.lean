import Hbackup.File
import Hbackup.Utils.Equiv.IndexLine

/-!
# Reading an index

What a `while(readIndexLine(f, details))` loop does depends on the entries it is given and on how
the reading ends, and on nothing else: `readEntries` computes both, and
`whileReadIndexLine_eq` says that the loop runs its body over the entries in order and then ends as
the reading does.

`entriesOf f` is the result for the whole of `f`; it follows the lines of the text
(`entriesOf_line`, `entriesOf_end`, `entriesOf_last`).
-/

namespace Hbackup

open FormCoding Separated

/-! ### `getline` -/

theorem getlineLoop_line (fault : Option Exn) {line : Bytes} (h : 10 ∉ line) (rest r : Bytes) :
    InFile.getlineLoop fault (line ++ 10 :: rest) r = .ok ((r ++ line, true), rest) := by
  induction line generalizing r with
  | nil => simp [InFile.getlineLoop]
  | cons c line ih =>
    rw [List.mem_cons, not_or] at h
    rw [List.cons_append, InFile.getlineLoop, if_neg (Ne.symm h.1), ih h.2]
    simp

theorem getlineLoop_last (fault : Option Exn) {line : Bytes} (h : 10 ∉ line) (r : Bytes) :
    InFile.getlineLoop fault line r =
      match fault with
      | some e => .error e
      | none => .ok ((r ++ line, false), []) := by
  induction line generalizing r with
  | nil => cases fault <;> simp [InFile.getlineLoop]
  | cons c line ih =>
    rw [List.mem_cons, not_or] at h
    rw [InFile.getlineLoop, if_neg (Ne.symm h.1), ih h.2]
    cases fault <;> simp

/-- A line with its newline. -/
theorem getline_line (fault : Option Exn) {line : Bytes} (h : 10 ∉ line) (rest : Bytes) :
    InFile.getline ⟨line ++ 10 :: rest, fault⟩ = .ok (some line, ⟨rest, fault⟩) := by
  simp [InFile.getline, getlineLoop_line fault h, bind, Except.bind, pure, Except.pure]

/-- The bytes behind the last newline are a line, unless there are none. -/
theorem getline_last {line : Bytes} (h : 10 ∉ line) (hne : line ≠ []) :
    InFile.getline ⟨line, none⟩ = .ok (some line, ⟨[], none⟩) := by
  simp [InFile.getline, getlineLoop_last none h, bind, Except.bind, pure, Except.pure, hne]

theorem getline_eof : InFile.getline ⟨[], none⟩ = .ok (none, ⟨[], none⟩) := rfl

theorem getline_fault {line : Bytes} (h : 10 ∉ line) (e : Exn) :
    InFile.getline ⟨line, some e⟩ = .error e := by
  simp [InFile.getline, getlineLoop_last _ h, bind, Except.bind]

/-- A text is empty behind its last newline, or starts with a line. -/
theorem lines_cases (text : Bytes) :
    (∃ line rest, 10 ∉ line ∧ text = line ++ 10 :: rest) ∨ 10 ∉ text := by
  by_cases h : 10 ∈ text
  · obtain ⟨line, rest, rfl, hline⟩ := List.eq_append_cons_of_mem h
    exact .inl ⟨line, rest, hline, rfl⟩
  · exact .inr h

/-- What `getline` leaves of the file. -/
theorem getline_rest {f f' : InFile} {line : Bytes} (h : f.getline = .ok (some line, f')) :
    f'.rest.length < f.rest.length := by
  obtain ⟨rest, fault⟩ := f
  rcases lines_cases rest with ⟨l, rest, hl, rfl⟩ | hl
  · rw [getline_line fault hl] at h
    cases h
    simp only [List.length_append, List.length_cons]
    omega
  · cases fault with
    | some e => rw [getline_fault hl] at h; cases h
    | none =>
      by_cases hne : rest = []
      · subst hne; rw [getline_eof] at h; cases h
      · rw [getline_last hl hne] at h
        cases h
        exact List.length_pos_iff.mpr hne

theorem readIndexLine_rest {f f' : InFile} {l : Details}
    (h : readIndexLine f = .ok (some l, f')) : f'.rest.length < f.rest.length := by
  unfold readIndexLine at h
  cases hg : f.getline with
  | error e => simp [hg, bind, Except.bind] at h
  | ok r =>
    obtain ⟨_ | line, f₁⟩ := r
    · simp [hg, bind, Except.bind] at h
    · simp only [hg, bind, Except.bind] at h
      split_ifs at h with hend
      · cases h
      · cases hp : parseIndexLine line with
        | error e => simp [hp] at h
        | ok d =>
          simp only [hp, pure, Except.pure, Except.ok.injEq, Prod.mk.injEq] at h
          rw [← h.2]
          exact getline_rest hg

/-! ### The entries of an index -/

/-- The entries that `readIndexLine` delivers, and the exception that ends the reading (`none` for
the normal end). -/
def readEntries : Nat → InFile → List Details × Option Exn
  | 0, _ => ([], none)
  | turns + 1, f =>
    match readIndexLine f with
    | .error e => ([], some e)
    | .ok (none, _) => ([], none)
    | .ok (some details, f) =>
      let (l, e) := readEntries turns f
      (details :: l, e)

/-- **The loop runs its body over the entries, and then ends as the reading does.** -/
theorem whileReadIndexLine_eq {m : Type → Type} [Monad m] [LawfulMonad m]
    (raise : Exn → m PUnit) (body : Details → m PUnit) : ∀ (turns : Nat) (f : InFile),
    whileReadIndexLine raise body turns f =
      ((readEntries turns f).1.forM body >>= fun _ =>
        (readEntries turns f).2.elim (pure ⟨⟩) raise)
  | 0, f => by simp [whileReadIndexLine, readEntries]
  | turns + 1, f => by
    rw [whileReadIndexLine, readEntries]
    match hf : readIndexLine f with
    | .error e => simp
    | .ok (none, f') => simp
    | .ok (some details, f') =>
      change (body details >>= fun _ => whileReadIndexLine raise body turns f') =
        ((body details >>= fun _ => (readEntries turns f').1.forM body) >>= fun _ => _)
      rw [whileReadIndexLine_eq raise body turns f', bind_assoc]

/-- The entries read from the whole of `f`. -/
def entriesOf (f : InFile) : List Details × Option Exn := readEntries f.turns f

/-- Every entry takes a byte, so more turns than `f.turns` change nothing. -/
theorem readEntries_turns : ∀ {turns : Nat} {f : InFile}, f.rest.length < turns →
    readEntries turns f = entriesOf f := by
  suffices H : ∀ (turns turns' : Nat) (f : InFile), f.rest.length < turns →
      f.rest.length < turns' → readEntries turns f = readEntries turns' f from
    fun {_ _} h => H _ _ _ h (Nat.lt_succ_self _)
  intro turns
  induction turns with
  | zero => intro turns' f h; omega
  | succ turns ih =>
    intro turns' f h h'
    obtain ⟨turns', rfl⟩ : ∃ k, turns' = k + 1 := ⟨turns' - 1, by omega⟩
    rw [readEntries, readEntries]
    match hf : readIndexLine f with
    | .error e => rfl
    | .ok (none, f') => rfl
    | .ok (some details, f') =>
      have hshort := readIndexLine_rest hf
      simp only
      rw [ih turns' f' (by omega) (by omega)]

/-- One step of the reading. -/
theorem entriesOf_eq (f : InFile) : entriesOf f =
    match readIndexLine f with
    | .error e => ([], some e)
    | .ok (none, _) => ([], none)
    | .ok (some details, f') => (details :: (entriesOf f').1, (entriesOf f').2) := by
  rw [entriesOf, InFile.turns, readEntries]
  match hf : readIndexLine f with
  | .error e => rfl
  | .ok (none, f') => rfl
  | .ok (some details, f') =>
    simp only
    rw [readEntries_turns (readIndexLine_rest hf)]

theorem whileReadIndexLine_eq_entriesOf {m : Type → Type} [Monad m] [LawfulMonad m]
    (raise : Exn → m PUnit) (body : Details → m PUnit) (f : InFile) :
    whileReadIndexLine raise body f.turns f =
      ((entriesOf f).1.forM body >>= fun _ => (entriesOf f).2.elim (pure ⟨⟩) raise) :=
  whileReadIndexLine_eq raise body f.turns f

/-- A line of the index. -/
theorem entriesOf_line {line : Bytes} (h : 10 ∉ line) (hend : line ≠ lit "[end]") {d : Details}
    (hd : parseIndexLine line = .ok d) (rest : Bytes) (fault : Option Exn) :
    entriesOf ⟨line ++ 10 :: rest, fault⟩ =
      (d :: (entriesOf ⟨rest, fault⟩).1, (entriesOf ⟨rest, fault⟩).2) := by
  rw [entriesOf_eq, readIndexLine, getline_line fault h]
  simp [bind, Except.bind, pure, Except.pure, hend, hd]

/-- A line that is not an index line. -/
theorem entriesOf_bad {line : Bytes} (h : 10 ∉ line) (hend : line ≠ lit "[end]") {e : Exn}
    (he : parseIndexLine line = .error e) (rest : Bytes) (fault : Option Exn) :
    entriesOf ⟨line ++ 10 :: rest, fault⟩ = ([], some e) := by
  rw [entriesOf_eq, readIndexLine, getline_line fault h]
  simp [bind, Except.bind, hend, he]

/-- The end marker; what follows it is not read. -/
theorem entriesOf_end (rest : Bytes) (fault : Option Exn) :
    entriesOf ⟨lit "[end]" ++ 10 :: rest, fault⟩ = ([], none) := by
  rw [entriesOf_eq, readIndexLine, getline_line fault (by decide)]
  simp [bind, Except.bind, pure, Except.pure]

/-- The text behind the last newline. -/
theorem entriesOf_last {line : Bytes} (h : 10 ∉ line) :
    entriesOf ⟨line, none⟩ =
      if line = [] then ([], some (.badIndexFile (lit "unexpected end of file")))
      else if line = lit "[end]" then ([], none)
      else match parseIndexLine line with
        | .error e => ([], some e)
        | .ok d => ([d], some (.badIndexFile (lit "unexpected end of file"))) := by
  have heof : entriesOf ⟨[], none⟩ = ([], some (.badIndexFile (lit "unexpected end of file"))) := by
    rw [entriesOf_eq, readIndexLine, getline_eof]; rfl
  by_cases hne : line = []
  · rw [if_pos hne, hne, heof]
  · rw [if_neg hne, entriesOf_eq, readIndexLine, getline_last h hne]
    by_cases hend : line = lit "[end]"
    · simp [bind, Except.bind, pure, Except.pure, hend]
    · cases hp : parseIndexLine line with
      | error e => simp [bind, Except.bind, hend, hp]
      | ok d => simp [bind, Except.bind, pure, Except.pure, hend, hp, heof]

theorem entriesOf_fault {line : Bytes} (h : 10 ∉ line) (e : Exn) :
    entriesOf ⟨line, some e⟩ = ([], some e) := by
  rw [entriesOf_eq, readIndexLine, getline_fault h]; rfl

/-! ### Well-formed indexes -/

/-- `f` holds an index with the entries `ds`: lines that `parseIndexLine` accepts, then a line
`[end]`, which need not have a newline if nothing follows it. -/
def IsIndex (f : InFile) (ds : List Details) : Prop :=
  ∃ lines tail, List.Forall₂ (fun l d => 10 ∉ l ∧ parseIndexLine l = .ok d) lines ds ∧
    f.rest = unlines 10 lines ++ lit "[end]" ++ tail ∧
    (tail = [] ∧ f.fault = none ∨ ∃ t, tail = 10 :: t)

/-- The end marker is not an index line. -/
theorem parseIndexLine_end : parseIndexLine (lit "[end]") = .error (.badIndexFile (lit "[end]")) := by
  rfl

theorem ne_end_of_parse {line : Bytes} {d : Details} (h : parseIndexLine line = .ok d) :
    line ≠ lit "[end]" := by
  rintro rfl
  rw [parseIndexLine_end] at h
  cases h

theorem entriesOf_of_isIndex {f : InFile} {ds : List Details} (h : IsIndex f ds) :
    entriesOf f = (ds, none) := by
  obtain ⟨lines, tail, hlines, hrest, htail⟩ := h
  obtain ⟨rest, fault⟩ := f
  simp only at hrest htail
  subst hrest
  induction hlines with
  | nil =>
    rcases htail with ⟨rfl, rfl⟩ | ⟨t, rfl⟩
    · rw [unlines_nil, List.nil_append, List.append_nil, entriesOf_last (by decide)]
      rfl
    · rw [unlines_nil, List.nil_append, entriesOf_end]
  | @cons l d lines ds hl _ ih =>
    rw [unlines_cons, List.append_assoc, List.append_assoc, List.cons_append,
      entriesOf_line hl.1 (ne_end_of_parse hl.2) hl.2, ← List.append_assoc, ih]

theorem isIndex_of_entriesOf : ∀ {f : InFile} {ds : List Details}, entriesOf f = (ds, none) →
    IsIndex f ds := by
  suffices H : ∀ (n : Nat) (f : InFile) (ds : List Details), f.rest.length = n →
      entriesOf f = (ds, none) → IsIndex f ds from fun {f ds} h => H _ f ds rfl h
  intro n
  induction n using Nat.strong_induction_on with
  | _ n ih =>
  rintro ⟨rest, fault⟩ ds hn h
  rcases lines_cases rest with ⟨line, rest, hline, rfl⟩ | hlast
  · by_cases hend : line = lit "[end]"
    · -- the reading stops at this line
      subst hend
      rw [entriesOf_end] at h
      cases h
      exact ⟨[], 10 :: rest, .nil, rfl, .inr ⟨rest, rfl⟩⟩
    · cases hp : parseIndexLine line with
      | error e => rw [entriesOf_bad hline hend hp] at h; cases h
      | ok d =>
        rw [entriesOf_line hline hend hp] at h
        obtain ⟨rfl, hnone⟩ := Prod.mk.inj h
        obtain ⟨lines, tail, hlines, hrest, htail⟩ := ih rest.length (by simp at hn; omega)
          ⟨rest, fault⟩ _ rfl (Prod.ext rfl hnone)
        refine ⟨line :: lines, tail, .cons ⟨hline, hp⟩ hlines, ?_, htail⟩
        simp only at hrest
        simp [hrest]
  · cases fault with
    | some e => rw [entriesOf_fault hlast] at h; cases h
    | none =>
      rw [entriesOf_last hlast] at h
      split_ifs at h with hempty hend
      · cases h
      · cases h
        exact ⟨[], [], .nil, by simp [hend], .inl ⟨rfl, rfl⟩⟩
      · cases hp : parseIndexLine rest with
        | error e => rw [hp] at h; cases h
        | ok d => rw [hp] at h; cases h

/-- **The reading ends normally exactly on well-formed indexes**, and then it delivers their
entries. -/
theorem entriesOf_eq_iff_isIndex (f : InFile) (ds : List Details) :
    entriesOf f = (ds, none) ↔ IsIndex f ds :=
  ⟨isIndex_of_entriesOf, entriesOf_of_isIndex⟩

end Hbackup
