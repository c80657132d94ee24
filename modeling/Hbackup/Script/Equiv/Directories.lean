import Hbackup.Equiv.Makedirs
import Hbackup.Script.Directories

/-!
# What `makedirs` of the script makes

The loop of `makedirs` goes over the components behind the first one, and starts at the root.  For an
absolute path this is the way along the path; for a relative one it is another way, from the root and
without the first component.  The path becomes a directory, and nothing else is made, exactly if
on both ways the same directories are missing (`makedirs_iff`).
-/

namespace Hbackup.Script

open ProgramLogic Separated

variable {cwd q : List Bytes} {t : Places}

/-! ### Ways -/

namespace Places

theorem isDirAt_iff : t.isDirAt q = true ↔ t.kind q = some .dir := decide_eq_true_iff

theorem dropLast_isDir (h : t.kind q = some .dir) : t.kind q.dropLast = some .dir := by
  rcases List.eq_nil_or_concat' q with rfl | ⟨above, name, rfl⟩
  · exact t.root
  · rw [List.dropLast_concat]
    apply t.closed above name
    rw [h]
    simp

/-- What a component leads to is a directory already, or a name in one. -/
theorem step_cases (h : t.kind q = some .dir) (c : Bytes) :
    t.kind (step q c) = some .dir ∨ step q c = q ++ [c] := by
  unfold step
  split_ifs
  · exact .inl h
  · exact .inl (dropLast_isDir h)
  · exact .inr rfl

theorem kind_add (h : t.kind q = none) (hparent : t.kind q.dropLast = some .dir) (q' : List Bytes) :
    (t.add q).kind q' = if q' = q then some .dir else t.kind q' := by
  simp [add, h, hparent]

end Places

/-- A path of the loop: empty at first, and then with a slash before every component. -/
def FromRoot (bits : Bytes) : Prop := bits = [] ∨ bits.head? = some 47

/-- Where the loop is. -/
def at_ (bits : Bytes) : List Bytes := (bits.splitOn 47).foldl step []

theorem FromRoot.next {bits : Bytes} (h : FromRoot bits) (c : Bytes) :
    FromRoot (bits ++ (lit "/" ++ c)) := by
  right
  rcases h with rfl | h
  · rfl
  · cases bits with
    | nil => cases h
    | cons b bits => exact h

theorem splitOn_next (bits : Bytes) {c : Bytes} (hc : 47 ∉ c) :
    (bits ++ (lit "/" ++ c)).splitOn 47 = bits.splitOn 47 ++ [c] := by
  have hsplit : (bits ++ 47 :: c).splitOn 47 = bits.splitOn 47 ++ c.splitOn 47 :=
    List.splitOn_append_cons_self bits c
  rw [List.splitOn_eq_singleton hc] at hsplit
  exact hsplit

theorem at_next (bits : Bytes) {c : Bytes} (hc : 47 ∉ c) :
    at_ (bits ++ (lit "/" ++ c)) = step (at_ bits) c := by
  rw [at_, splitOn_next bits hc, List.foldl_append]
  rfl

theorem onTheWay_next {bits : Bytes} (h : FromRoot bits) {c : Bytes} (hc : 47 ∉ c) :
    onTheWay cwd (bits ++ (lit "/" ++ c)) =
      (bits.splitOn 47).scanl step [] ++ [step (at_ bits) c] := by
  have hhead := (h.next c).resolve_left (by simp [lit])
  rw [onTheWay, if_pos hhead, splitOn_next bits hc, List.scanl_append]
  rfl

/-! ### The loop -/

/-- The loop has come to `bits`: all on the way are directories. -/
structure Made (t : Places) (bits : Bytes) : Prop where
  fromRoot : FromRoot bits
  dirs : ∀ q ∈ (bits.splitOn 47).scanl step [], t.kind q = some .dir

theorem foldl_mem_scanl (q : List Bytes) (comps : List Bytes) :
    comps.foldl step q ∈ comps.scanl step q := by
  induction comps generalizing q with
  | nil => simp
  | cons c comps ih =>
    rw [List.scanl_cons, List.foldl_cons]
    exact List.mem_cons_of_mem _ (ih _)

theorem Made.at_ {bits : Bytes} (h : Made t bits) : t.kind (Script.at_ bits) = some .dir :=
  h.dirs _ (foldl_mem_scanl [] _)

theorem Made.next {t' : Places} {bits c : Bytes} (h : Made t bits) (hc : 47 ∉ c)
    (hdir : t'.kind (step (Script.at_ bits) c) = some .dir)
    (hkeep : ∀ q, t.kind q = some .dir → t'.kind q = some .dir) : Made t' (bits ++ (lit "/" ++ c)) := by
  refine ⟨h.fromRoot.next c, ?_⟩
  intro q hq
  rw [splitOn_next bits hc, List.scanl_append] at hq
  rcases List.mem_append.mp hq with hq | hq
  · exact hkeep q (h.dirs q hq)
  · change q ∈ [step (Script.at_ bits) c] at hq
    rw [List.mem_singleton.mp hq]
    exact hdir

/-- Nothing but a directory was in the way at `q`, and there is one now. -/
structure Turned (t : Places) (q : List Bytes) (t' : Places) : Prop where
  free : t.kind q ≠ some .other
  kind : ∀ q', t'.kind q' = if q' = q then some .dir else t.kind q'

/-- One turn makes a directory where the component leads, unless something else is there. -/
theorem wp_makedirsTurn {bits c : Bytes} (h : Made t bits) (hc : 47 ∉ c) :
    wp (makedirsTurn cwd bits c)
      (fun bits' t' => bits' = bits ++ (lit "/" ++ c) ∧ Turned t (step (at_ bits) c) t')
      (fun _ _ => t.kind (step (at_ bits) c) = some .other) t := by
  have hall : ((bits.splitOn 47).scanl step []).all t.isDirAt = true := by
    rw [List.all_eq_true]
    exact fun q hq => Places.isDirAt_iff.mpr (h.dirs q hq)
  have hne : bits ++ (lit "/" ++ c) ≠ [] := by simp [lit]
  rw [makedirsTurn, wp_bind, isdir, wp_bind, wp_get, wp_pure, onTheWay_next h.fromRoot hc, wp_ite]
  split
  · rename_i hdir
    have hthere : t.kind (step (at_ bits) c) = some .dir := by
      simpa [hne, hall, Places.isDirAt_iff] using hdir
    refine ⟨rfl, by rw [hthere]; simp, ?_⟩
    intro q
    split
    · rename_i hq
      rw [hq, hthere]
    · rfl
  · rename_i hdir
    have hnot : t.kind (step (at_ bits) c) ≠ some .dir := by
      simpa [hne, hall, Places.isDirAt_iff] using hdir
    -- so that it is a name in a directory
    have hname := (Places.step_cases h.at_ c).resolve_left hnot
    have hparent : t.kind (step (at_ bits) c).dropLast = some .dir := by
      rw [hname, List.dropLast_concat]
      exact h.at_
    rw [wp_bind, mkdir, wp_bind, wp_get, onTheWay_next h.fromRoot hc, List.dropLast_concat, wp_ite,
      if_pos hall, List.getLastD_concat, wp_ite]
    split
    · rename_i habsent
      exact ⟨rfl, by rw [habsent]; simp, Places.kind_add habsent hparent⟩
    · rename_i hthere
      rw [wp_throw]
      cases hkind : t.kind (step (at_ bits) c) with
      | none => exact absurd hkind hthere
      | some k =>
        cases k with
        | dir => exact absurd hkind hnot
        | other => rfl

/-- The loop makes directories all along, unless something else is on the way. -/
theorem wp_makedirsLoop {bits : Bytes} (comps : List Bytes) (hcomps : ∀ c ∈ comps, 47 ∉ c)
    (h : Made t bits) :
    wp (comps.foldlM (makedirsTurn cwd) bits)
      (fun _ t' => (∀ q ∈ comps.scanl step (at_ bits), t.kind q ≠ some .other) ∧
        ∀ q, t'.kind q = if q ∈ comps.scanl step (at_ bits) then some .dir else t.kind q)
      (fun _ _ => ∃ q ∈ comps.scanl step (at_ bits), t.kind q = some .other) t := by
  induction comps generalizing bits t with
  | nil =>
    have hdir := h.at_
    rw [List.foldlM_nil, wp_pure]
    constructor
    · intro q hq
      rw [List.mem_singleton.mp hq, hdir]
      simp
    · intro q
      split
      · rename_i hq
        rw [List.mem_singleton.mp hq, hdir]
      · rfl
  | cons c comps ih =>
    have hc := hcomps c List.mem_cons_self
    rw [List.foldlM_cons, wp_bind, List.scanl_cons]
    apply wp_mono (wp_makedirsTurn h hc)
    · rintro _ t₁ ⟨rfl, hturned⟩
      -- one turn has made the next directory, so that the rest of the loop starts where it ends
      have hmade : Made t₁ (bits ++ (lit "/" ++ c)) := by
        apply h.next hc
        · rw [hturned.kind, if_pos rfl]
        · intro q hq
          rw [hturned.kind, hq]
          split <;> rfl
      have hloop := ih (fun d hd => hcomps d (List.mem_cons_of_mem c hd)) hmade
      rw [at_next bits hc] at hloop
      have hfirst : step (at_ bits) c ∈ comps.scanl step (step (at_ bits) c) := by
        cases comps <;> simp [List.scanl_cons]
      apply wp_mono hloop
      · rintro _ t' ⟨hfree, hkind⟩
        constructor
        · intro q hq
          rcases List.mem_cons.mp hq with rfl | hq
          · rw [h.at_]
            simp
          · have hother := hfree q hq
            rw [hturned.kind] at hother
            split at hother
            · rename_i heq
              rw [heq]
              exact hturned.free
            · exact hother
        · intro q
          rw [hkind, hturned.kind]
          -- what the rest of the loop goes through, what this turn has made, and anything else
          by_cases hq : q ∈ comps.scanl step (step (at_ bits) c)
          · rw [if_pos hq, if_pos (List.mem_cons_of_mem _ hq)]
          · have hne : q ≠ step (at_ bits) c := fun heq => hq (heq ▸ hfirst)
            rw [if_neg hq, if_neg hne]
            by_cases hstart : q = at_ bits
            · rw [if_pos (hstart ▸ List.mem_cons_self), hstart, h.at_]
            · rw [if_neg (by simp [hstart, hq])]
      · rintro _ t' ⟨q, hq, hother⟩
        refine ⟨q, List.mem_cons_of_mem _ hq, ?_⟩
        rw [hturned.kind] at hother
        split at hother
        · cases hother
        · exact hother
    · intro _ _ hother
      refine ⟨_, List.mem_cons_of_mem _ ?_, hother⟩
      cases comps <;> simp [List.scanl_cons]

/-! ### All of it -/

/-- The way that the loop takes. -/
def loopWay (path : Bytes) : List (List Bytes) := ((path.splitOn 47).drop 1).scanl step []

/-- `makedirs` returns, the path is a directory then, and nothing has been made but what is on the way
along the path. -/
def MakesIt (cwd : List Bytes) (path : Bytes) (t : Places) : Prop :=
  ∃ t', makedirs cwd path t = .ok () t' ∧ (∀ q ∈ onTheWay cwd path, t'.kind q = some .dir) ∧
    ∀ q, t'.kind q ≠ t.kind q → t'.kind q = some .dir ∧ q ∈ onTheWay cwd path

/-- There is nothing at `q` that could be a directory on the way to something. -/
def Missing (t : Places) (q : List Bytes) : Prop := t.kind q ≠ some .dir

theorem isdir_run (cwd : List Bytes) {path : Bytes} (hne : path ≠ []) (t : Places) :
    isdir cwd path t = .ok ((onTheWay cwd path).all t.isDirAt) t := by
  have hall : decide (path ≠ [] ∧ (onTheWay cwd path).all t.isDirAt = true) =
      (onTheWay cwd path).all t.isDirAt := by
    rw [Bool.decide_and, decide_eq_true hne, Bool.true_and, Bool.decide_eq_true]
  change EStateM.Result.ok (decide _) t = _
  rw [hall]

theorem makesIt_iff {path : Bytes} (hne : path ≠ [])
    (hfree : ∀ q ∈ onTheWay cwd path, t.kind q ≠ some .other) :
    MakesIt cwd path t ↔ (∀ q ∈ onTheWay cwd path, ¬ Missing t q) ∨
      ∀ q, Missing t q → (q ∈ loopWay path ↔ q ∈ onTheWay cwd path) := by
  by_cases hthere : (onTheWay cwd path).all t.isDirAt = true
  · have hdirs : ∀ q ∈ onTheWay cwd path, t.kind q = some .dir := fun q hq =>
      Places.isDirAt_iff.mp (List.all_eq_true.mp hthere q hq)
    have hrun : makedirs cwd path t = .ok () t := by
      rw [makedirs, bind_of_ok (isdir_run cwd hne t), hthere]
      rfl
    apply iff_of_true
    · exact ⟨t, hrun, hdirs, fun q h => absurd rfl h⟩
    · exact .inl fun q hq hmissing => hmissing (hdirs q hq)
  have hsome : ¬ ∀ q ∈ onTheWay cwd path, ¬ Missing t q := by
    intro hall
    apply hthere
    rw [List.all_eq_true]
    exact fun q hq => Places.isDirAt_iff.mpr (not_not.mp (hall q hq))
  rw [or_iff_right hsome]
  -- the loop
  have hmade : Made t [] := by
    refine ⟨.inl rfl, ?_⟩
    intro q hq
    have hq : q ∈ [([] : List Bytes), []] := hq
    simp only [List.mem_cons, List.not_mem_nil, or_false, or_self] at hq
    rw [hq]
    exact t.root
  have hpieces : ∀ c ∈ (path.splitOn 47).drop 1, 47 ∉ c := fun c hc =>
    not_mem_of_mem_splitOn (List.mem_of_mem_drop hc)
  have hrun : wp (makedirs cwd path)
      (fun _ t' => (∀ q ∈ loopWay path, t.kind q ≠ some .other) ∧
        ∀ q, t'.kind q = if q ∈ loopWay path then some .dir else t.kind q)
      (fun _ _ => ∃ q ∈ loopWay path, t.kind q = some .other) t := by
    rw [makedirs, wp_bind, wp, isdir_run cwd hne t]
    dsimp only
    rw [wp_ite, if_neg hthere, wp_bind]
    exact wp_mono (wp_makedirsLoop _ hpieces hmade) (fun _ _ h => h) fun _ _ h => h
  constructor
  · rintro ⟨t', hok, hdirs, hmadeOnly⟩
    obtain ⟨-, hkind⟩ := wp_elim_ok hrun hok
    intro q hmissing
    constructor
    · intro hq
      have hnew : t'.kind q ≠ t.kind q := by
        rw [hkind, if_pos hq]
        exact Ne.symm hmissing
      exact (hmadeOnly q hnew).2
    · intro hq
      by_contra hnot
      have hdir := hdirs q hq
      rw [hkind, if_neg hnot] at hdir
      exact hmissing hdir
  · intro hsame
    cases hok : makedirs cwd path t with
    | error e t' =>
      obtain ⟨q, hq, hother⟩ := wp_elim_error hrun hok
      have hmissing : Missing t q := by
        rw [Missing, hother]
        simp
      exact absurd hother (hfree q ((hsame q hmissing).mp hq))
    | ok _ t' =>
      obtain ⟨-, hkind⟩ := wp_elim_ok hrun hok
      refine ⟨t', hok, ?_, ?_⟩
      · intro q hq
        rw [hkind]
        split
        · rfl
        · rename_i hnot
          by_contra hmissing
          exact hnot ((hsame q hmissing).mpr hq)
      · intro q hnew
        rw [hkind] at hnew ⊢
        split at hnew
        · rename_i hq
          rw [if_pos hq]
          exact ⟨rfl, (hsame q (Ne.symm hnew)).mp hq⟩
        · exact absurd rfl hnew

/-! ### Absolute and relative paths -/

/-- An absolute path has one way. -/
theorem mem_loopWay_iff {path : Bytes} (habsolute : path.head? = some 47) (q : List Bytes) :
    q ∈ loopWay path ↔ q ∈ onTheWay cwd path := by
  obtain ⟨rest, rfl⟩ : ∃ rest, path = 47 :: rest := by
    cases path with
    | nil => cases habsolute
    | cons c rest => exact ⟨rest, by rw [Option.some.inj habsolute]⟩
  have hsplit : (47 :: rest).splitOn 47 = [] :: rest.splitOn (47 : UInt8) :=
    List.splitOn_append_cons_self_of_not_mem List.not_mem_nil rest
  have hstart : [] ∈ (rest.splitOn 47).scanl step [] := by
    cases rest.splitOn 47 <;> simp [List.scanl_cons]
  rw [loopWay, onTheWay, if_pos habsolute, hsplit, List.scanl_cons, List.mem_cons]
  constructor
  · exact .inr
  · rintro (rfl | hq)
    · exact hstart
    · exact hq

theorem makesIt_of_absolute {path : Bytes} (habsolute : path.head? = some 47)
    (hfree : ∀ q ∈ onTheWay cwd path, t.kind q ≠ some .other) : MakesIt cwd path t := by
  have hne : path ≠ [] := by
    rintro rfl
    cases habsolute
  exact (makesIt_iff hne hfree).mpr (.inr fun q _ => mem_loopWay_iff habsolute q)

theorem splitOn_text (p : DirPath) :
    p.text.splitOn 47 = if p.absolute then [] :: p.comps else p.comps := by
  have hcomps : (([47] : Bytes).intercalate p.comps).splitOn 47 = p.comps :=
    List.splitOn_intercalate 47 (fun c hc => (p.names c hc).2) p.nonempty
  unfold DirPath.text textOf
  cases p.absolute with
  | false => exact hcomps
  | true =>
    have hsplit := List.splitOn_append_cons_self_of_not_mem (a := (47 : UInt8)) (List.not_mem_nil)
      (([47] : Bytes).intercalate p.comps)
    rw [hcomps] at hsplit
    exact hsplit

/-- Where plain names lead. -/
theorem foldl_step {comps : List Bytes} (hplain : ∀ c ∈ comps, c ≠ [] ∧ c ≠ lit "." ∧ c ≠ lit "..")
    (q : List Bytes) : comps.foldl step q = q ++ comps := by
  induction comps generalizing q with
  | nil => exact (List.append_nil q).symm
  | cons c comps ih =>
    obtain ⟨hne, hdot, hdots⟩ := hplain c List.mem_cons_self
    have hstep : step q c = q ++ [c] := by
      rw [step, if_neg (by simp [hne, hdot]), if_neg hdots]
    rw [List.foldl_cons, hstep, ih fun d hd => hplain d (List.mem_cons_of_mem c hd), List.append_assoc]
    rfl

theorem length_of_mem_scanl {comps : List Bytes} {q q' : List Bytes} (h : q' ∈ comps.scanl step q) :
    q'.length ≤ q.length + comps.length := by
  induction comps generalizing q with
  | nil => rw [List.mem_singleton.mp h]; exact Nat.le_add_right _ _
  | cons c comps ih =>
    have hstep : (step q c).length ≤ q.length + 1 := by
      unfold step
      split_ifs
      · omega
      · rw [List.length_dropLast]
        omega
      · simp
    rw [List.scanl_cons] at h
    rw [List.length_cons]
    rcases List.mem_cons.mp h with rfl | h
    · omega
    · have hlen := ih h
      omega

/-- A relative path of plain names that is not there is not made. -/
theorem not_makesIt_of_relative {p : DirPath} (hrelative : p.absolute = false)
    (hplain : ∀ c ∈ p.comps, c ≠ lit "." ∧ c ≠ lit "..")
    (hfree : ∀ q ∈ onTheWay cwd p.text, t.kind q ≠ some .other) (hmissing : Missing t (cwd ++ p.comps)) :
    ¬ MakesIt cwd p.text t := by
  have hsplit := splitOn_text p
  rw [hrelative, if_neg (by simp)] at hsplit
  have hhead : p.text.head? ≠ some 47 := by
    obtain ⟨c, comps, hcomps⟩ := List.exists_cons_of_ne_nil p.nonempty
    obtain ⟨hne, hc⟩ := p.names c (by rw [hcomps]; simp)
    obtain ⟨b, c', rfl⟩ := List.exists_cons_of_ne_nil hne
    rw [DirPath.text, textOf, hrelative, hcomps]
    intro hslash
    cases comps with
    | nil =>
      have hb : some b = some 47 := hslash
      exact hc (by rw [Option.some.inj hb]; exact List.mem_cons_self)
    | cons d comps =>
      have hb : some b = some 47 := hslash
      exact hc (by rw [Option.some.inj hb]; exact List.mem_cons_self)
  have hend : cwd ++ p.comps ∈ onTheWay cwd p.text := by
    rw [onTheWay, if_neg hhead, hsplit, ← foldl_step fun c hc => ⟨(p.names c hc).1, hplain c hc⟩]
    exact foldl_mem_scanl cwd p.comps
  have hne : p.text ≠ [] := textOf_ne_nil p.nonempty p.names
  rw [makesIt_iff hne hfree]
  rintro (hthere | hsame)
  · exact hthere _ hend hmissing
  · have hlen := length_of_mem_scanl ((hsame _ hmissing).mpr hend)
    have hpos := List.length_pos_iff.mpr p.nonempty
    rw [hsplit, List.length_drop, List.length_append, List.length_nil] at hlen
    omega

/-- **`makedirs` of the script makes the directory that it is asked for**, and only what is on the way to
it, exactly if it is there already or if the way from the root along the components behind the first,
which the loop takes, and the way along the path lack the same directories. -/
theorem makedirs_iff (cwd : List Bytes) (p : DirPath) (t : Places)
    (hfree : ∀ q ∈ onTheWay cwd p.text, t.kind q ≠ some .other) :
    MakesIt cwd p.text t ↔ (∀ q ∈ onTheWay cwd p.text, ¬ Missing t q) ∨
      ∀ q, Missing t q → (q ∈ loopWay p.text ↔ q ∈ onTheWay cwd p.text) :=
  makesIt_iff (textOf_ne_nil p.nonempty p.names) hfree

/-- An empty home directory, in which the script is started. -/
def emptyHome : Places where
  kind q := if q = [] ∨ q = [lit "home"] then some .dir else none
  root := rfl
  closed := by
    intro q name h
    have hq : q ++ [name] = [lit "home"] := by
      simpa using h
    have hnil : q = [] := by
      have hlen := congrArg List.length hq
      simpa using hlen
    rw [if_pos (.inl hnil)]

/-- A directory in the repository, which is given by a relative path. -/
def relativeRepo : DirPath := ⟨false, [lit "repo", lit "sha1"], by simp, by decide⟩

theorem emptyHome_free (q : List Bytes) : emptyHome.kind q ≠ some .other := by
  change (if q = [] ∨ q = [lit "home"] then some Kind.dir else none) ≠ some .other
  split <;> simp

/-- The same directory, given by an absolute path. -/
def absoluteRepo : DirPath := ⟨true, [lit "home", lit "repo", lit "sha1"], by simp, by decide⟩

/-- It is made if the path is absolute, and not if it is relative. -/
theorem makedirs_iff_emptyHome : MakesIt [lit "home"] absoluteRepo.text emptyHome ∧
    ¬ MakesIt [lit "home"] relativeRepo.text emptyHome := by
  constructor
  · apply (makedirs_iff [lit "home"] absoluteRepo emptyHome fun q _ => emptyHome_free q).mpr
    right
    intro q _
    exact mem_loopWay_iff (by decide) q
  · refine fun h => ?_
    have hiff := (makedirs_iff [lit "home"] relativeRepo emptyHome fun q _ => emptyHome_free q).mp h
    have hmissing : Missing emptyHome [lit "home", lit "repo"] := by
      change emptyHome.kind _ ≠ _
      decide
    rcases hiff with hthere | hsame
    · exact hthere [lit "home", lit "repo"] (by decide) hmissing
    · exact absurd ((hsame _ hmissing).mpr (by decide)) (by decide)

theorem not_makesIt : ¬ ∀ (cwd : List Bytes) (p : DirPath) (t : Places),
    (∀ q ∈ onTheWay cwd p.text, t.kind q ≠ some .other) → MakesIt cwd p.text t := by
  intro hall
  have hplain : ∀ c ∈ relativeRepo.comps, c ≠ lit "." ∧ c ≠ lit ".." := by decide
  apply not_makesIt_of_relative (t := emptyHome) (p := relativeRepo) rfl hplain
    (fun q _ => emptyHome_free q) ?_ (hall [lit "home"] relativeRepo emptyHome fun q _ => emptyHome_free q)
  change emptyHome.kind _ ≠ _
  decide

end Hbackup.Script
