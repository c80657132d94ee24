import Hbackup.Equiv.Together

/-!
# Which runs there are

The processes of a pool may run one after the other, each as a backup by itself does, until it ends or
is stopped: whatever the store has then, the disk has at the end of some run of the pool
(`in_turn_together`).  But they may also take turns in a way that leaves an object wrong
(`spoilt_together`), so what is said of files that are still open, or were when a process was stopped,
cannot be left out.
-/

namespace Hbackup.Shared

open Concurrent ProgramLogic

variable {ι : Type} {d d' : Disk ι} {i j : ι} {s s' : Store}

/-! ### One after the other -/

/-- Nobody has anything open, and the disk has what the store has. -/
structure Quiet (d : Disk ι) (s : Store) : Prop where
  nodes : ∀ p, d.node p = s.lookup p
  named : ∀ p x, d.names p = some (.file x) → x < d.next
  unlinked : ∀ p q x, d.names p = some (.file x) → d.names q = some (.file x) → p = q
  handles : ∀ i, d.handles i = none

theorem Quiet.alone (hq : Quiet d s) (i : ι) {w : World} (hw : w.store = s) : Matches i none d w :=
  ⟨fun p => hw ▸ hq.nodes p, hq.named, hq.unlinked, hq.handles i⟩

theorem quiet_ofStore (s : Store) : Quiet (Disk.ofStore s : Disk ι) s := by
  refine ⟨fun p => ?_, fun p x => named_ofStore, fun p q x => unlinked_ofStore, fun _ => rfl⟩
  rw [Disk.node]
  change ((s.lookup p).map _).map _ = _
  cases hp : s.lookup p with
  | none => rfl
  | some node =>
    cases node with
    | dir => rfl
    | other => rfl
    | file data => simp [inodes_ofStore hp]

variable [DecidableEq ι]

/-- What a process that ends has written stays there. -/
theorem node_die (i : ι) (d : Disk ι) (p : Bytes) : (d.die i).node p = d.node p := by
  have hdata : ∀ x, ((d.die i).inodes x).data = (d.inodes x).data := by
    intro x
    unfold Disk.die
    cases d.handles i with
    | none => rfl
    | some hd =>
      by_cases hx : x = hd.ino
      · simp [hx]
      · simp [Function.update_of_ne hx]
  rw [Disk.node, Disk.node, (closed_die i d).names]
  simp only [hdata]

theorem Quiet.of_matches {o : Option Bytes} {w : World} (hm : Matches i o d w)
    (hothers : ∀ j, j ≠ i → d.handles j = none) : Quiet (d.die i) w.store := by
  have hclosed := closed_die i d
  refine ⟨fun p => (node_die i d p).trans (hm.nodes p), ?_, ?_, fun j => ?_⟩
  · rw [hclosed.names, hclosed.next]
    exact hm.named
  · rw [hclosed.names]
    exact hm.unlinked
  · by_cases hj : j = i
    · rw [hj, hclosed.handle]
    · rw [hclosed.handles j hj, hothers j hj]

/-- A process opens nothing for another. -/
theorem performs_handles {cfg : Config} {c : Call} {r : Except Stop (Res c)}
    (h : performs cfg i c d r d') (hj : j ≠ i) (hnone : d.handles j = none) : d'.handles j = none := by
  have hwrite : ∀ block, d.writebytes i block = .ok d' → d'.handles j = none := by
    intro block hok
    obtain ⟨hd, hwrote⟩ := wrote_writebytes hok
    rw [hwrote.handles j hj, hnone]
  -- only what opens, writes or closes changes a descriptor, and only that of `i`
  cases c with
  | exists_ path =>
    rcases h with ⟨rfl, -⟩ | ⟨rfl, -⟩
    · exact hnone
    · exact hnone
  | openHost path =>
    rcases h with ⟨rfl, -⟩ | ⟨rfl, -⟩
    · exact hnone
    · exact hnone
  | readHost path =>
    obtain ⟨rfl, -⟩ := h
    exact hnone
  | openWrite path =>
    rcases h with ⟨hok, -⟩ | ⟨rfl, -⟩
    · obtain ⟨x, hopened⟩ := openedAt_openWrite hok
      rcases hopened.same j hj with hsame | ⟨hd, hsome, -⟩
      · rw [hsame, hnone]
      · rw [hnone] at hsome
        cases hsome
    · exact hnone
  | writebytes path block =>
    rcases h with ⟨hok, -⟩ | ⟨⟨n, hok⟩, -⟩ | ⟨rfl, -⟩
    · exact hwrite _ hok
    · exact hwrite _ hok
    · exact hnone
  | close =>
    obtain ⟨rfl, -⟩ := h
    rw [(closed_close i d).handles j hj, hnone]
  | rename oldpath newpath =>
    rcases h with ⟨hok, -⟩ | ⟨rfl, -⟩
    · obtain ⟨x, hmoved⟩ := moved_rename hok
      rw [hmoved.handles, hnone]
    · exact hnone
  | mkdir path =>
    rcases h with ⟨hok, -⟩ | ⟨rfl, -⟩
    · rw [(madeDir_mkdir hok).handles, hnone]
    · exact hnone

theorem runs_handles {cfg : Config} {p p' : P Unit} (h : Runs (performs cfg i) p d p' d') (hj : j ≠ i)
    (hnone : d.handles j = none) : d'.handles j = none := by
  induction h with
  | refl => exact hnone
  | call hexec _ ih => exact ih (performs_handles hexec hj hnone)

/-- Backups one after the other: each starts from what the one before it has left in the store, and
runs until it ends or is stopped. -/
inductive InTurn (cfg : ι → Config) (jobs : ι → List Hashable) : List ι → Store → Store → Prop
  | nil (s : Store) : InTurn cfg jobs [] s s
  | cons {i : ι} {is : List ι} {s' : Store} (w : World)
      (hrest : InTurn cfg jobs is
        (stateAfter ((jobs i).forM (Hbackup.addHashable (cfg i))) w).store s') :
      InTurn cfg jobs (i :: is) w.store s'

/-- One process runs, and is stopped then if it has not ended. -/
theorem Quiet.steps {cfg : ι → Config} {jobs : ι → List Hashable} {w : World}
    {P : Pool ι Call Res Stop Unit (Disk ι)} (hsftp : (cfg i).sftp = false)
    (hq : Quiet P.shared w.store)
    (hproc : P.procs i = some ((jobs i).forM (addHashable (cfg i)))) :
    ∃ P', Pool.Steps (fun i => performs (cfg i) i) Disk.die P P' ∧
      Quiet P'.shared (stateAfter ((jobs i).forM (Hbackup.addHashable (cfg i))) w).store ∧
      ∀ j, j ≠ i → P'.procs j = P.procs j := by
  have hothers : ∀ {p d'}, Runs (performs (cfg i) i) ((jobs i).forM (addHashable (cfg i))) P.shared p d' →
      ∀ j, j ≠ i → d'.handles j = none := fun hruns j hj => runs_handles hruns hj (hq.handles j)
  have hpool : ∀ {p d'}, Runs (performs (cfg i) i) ((jobs i).forM (addHashable (cfg i))) P.shared p d' →
      Pool.Steps (fun i => performs (cfg i) i) Disk.die P ⟨d', Function.update P.procs i (some p)⟩ :=
    fun hruns => Runs.steps (fun i => performs (cfg i) i) Disk.die hruns hproc
  have hwp := wp_addHashables hsftp (jobs i) (hq.alone i rfl)
  refine (wp_stateAfter _ (fun w' => ∃ P', Pool.Steps (fun i => performs (cfg i) i) Disk.die P P' ∧
    Quiet P'.shared w'.store ∧ ∀ j, j ≠ i → P'.procs j = P.procs j) w).mp (wp_mono hwp ?_ ?_)
  · rintro _ w' ⟨d', hruns, hm⟩
    have hdie : d'.die i = d' := by
      unfold Disk.die
      rw [show d'.handles i = none from hm.handle]
    refine ⟨_, hpool hruns, ?_, fun j hj => Function.update_of_ne hj _ _⟩
    exact hdie ▸ Quiet.of_matches hm (hothers hruns)
  · rintro stop w' ⟨p, o, d', hruns, hm, hrunning, -⟩
    refine ⟨_, (hpool hruns).tail (.stop (Function.update_self i _ _) hrunning),
      Quiet.of_matches hm (hothers hruns), fun j hj => ?_⟩
    exact (Function.update_of_ne hj _ _).trans (Function.update_of_ne hj _ _)

/-- **One after the other is one way to run together**: whatever backups leave in the store that run one
after the other, each to its end or until it is stopped, is on the disk after some run of the pool. -/
theorem in_turn_together (cfg : ι → Config) (jobs : ι → List Hashable) (is : List ι) (s s' : Store)
    (hsftp : ∀ i, (cfg i).sftp = false) (hnodup : is.Nodup) (hturn : InTurn cfg jobs is s s') :
    ∃ P, Pool.Steps (fun i => performs (cfg i) i) Disk.die (start cfg jobs s) P ∧
      ∀ p, P.shared.node p = s'.lookup p := by
  suffices H : ∀ P : Pool ι Call Res Stop Unit (Disk ι), Quiet P.shared s →
      (∀ i ∈ is, P.procs i = some ((jobs i).forM (addHashable (cfg i)))) →
      ∃ P', Pool.Steps (fun i => performs (cfg i) i) Disk.die P P' ∧ Quiet P'.shared s' by
    obtain ⟨P, hsteps, hq⟩ := H (start cfg jobs s) (quiet_ofStore s) fun _ _ => rfl
    exact ⟨P, hsteps, hq.nodes⟩
  induction hturn with
  | nil s => exact fun P hq _ => ⟨P, .refl, hq⟩
  | @cons i is s' w hrest ih =>
    intro P hq hprocs
    obtain ⟨hnot, hnodup⟩ := List.nodup_cons.mp hnodup
    obtain ⟨P₁, hsteps₁, hq₁, hsame⟩ := hq.steps (hsftp i) (hprocs i List.mem_cons_self)
    obtain ⟨P', hsteps, hq'⟩ := ih hnodup P₁ hq₁ fun j hj => by
      rw [hsame j fun he => hnot (he ▸ hj)]
      exact hprocs j (List.mem_cons_of_mem i hj)
    exact ⟨P', hsteps₁.trans hsteps, hq'⟩

omit [DecidableEq ι] in
theorem InTurn.two (cfg : ι → Config) (jobs : ι → List Hashable) (i j : ι) (s : Store) :
    InTurn cfg jobs [i, j] s (stateAfter ((jobs j).forM (Hbackup.addHashable (cfg j)))
      { store := (stateAfter ((jobs i).forM (Hbackup.addHashable (cfg i))) { store := s }).store }).store :=
  .cons { store := s } (.cons
    { store := (stateAfter ((jobs i).forM (Hbackup.addHashable (cfg i))) { store := s }).store }
    (.nil _))

/-- A backup that is killed, and one that is not. -/
def oneKilled : Bool → Config
  | true => largeFile 7
  | false => largeFile 1000

theorem in_turn_largeFile : ∃ P : Pool Bool Call Res Stop Unit (Disk Bool),
    Pool.Steps (fun i => performs (oneKilled i) i) Disk.die
      (start oneKilled (fun _ => [largeJob]) ∅) P ∧
    P.shared.node largeJob.hp = some (.file (List.replicate 300 1)) := by
  have hlast : (stateAfter ([largeJob].forM (Hbackup.addHashable (oneKilled false)))
      { store := (stateAfter ([largeJob].forM (Hbackup.addHashable (oneKilled true)))
        { store := ∅ }).store }).store.lookup largeJob.hp = some (.file (List.replicate 300 1)) := by
    decide +kernel
  obtain ⟨P, hsteps, hnodes⟩ := in_turn_together oneKilled (fun _ => [largeJob]) [true, false] ∅ _
    (fun i => by cases i <;> rfl) (by decide) (.two oneKilled (fun _ => [largeJob]) true false ∅)
  exact ⟨P, hsteps, (hnodes _).trans hlast⟩

/-! ### Two that copy the same -/

variable {cfg : Config} {hd : Handle} {x : Nat}

theorem patch_append (data : Bytes) (pos : Nat) (b b' : Bytes) :
    patch (patch data pos b) (pos + b.length) b' = patch data pos (b ++ b') := by
  by_cases hb : b = []
  · simp [patch, hb]
  by_cases hb' : b' = []
  · simp [patch, hb']
  have hne : b ++ b' ≠ [] := by simp [hb]
  apply List.ext_getElem?
  intro k
  rw [getElem?_patch hb', getElem?_patch hb, getElem?_patch hne, List.length_append]
  by_cases hpos : k < pos
  · rw [if_pos (by omega), if_pos hpos, if_pos hpos]
    rfl
  by_cases hblock : k < pos + b.length
  · rw [if_pos hblock, if_neg hpos, if_pos hblock, if_neg hpos, if_pos (by omega),
      List.getElem?_append_left (by omega), List.getElem?_eq_getElem (by omega)]
    rfl
  · rw [if_neg hblock, if_neg hpos, if_neg hblock, if_neg hpos, ← Nat.add_assoc,
      List.getElem?_append_right (by omega)]
    congr 2
    omega

omit [DecidableEq ι] in
theorem Wrote.nil (hhd : d.handles i = some hd) : Wrote i hd [] d d := by
  refine ⟨rfl, rfl, ?_, fun _ _ => rfl, hhd, ?_, fun _ _ => rfl⟩
  · simp [patch]
  · rw [hhd, List.append_nil]

omit [DecidableEq ι] in
theorem Wrote.append {d'' : Disk ι} {b b' : Bytes} (h : Wrote i hd b d d')
    (h' : Wrote i { hd with wrote := hd.wrote ++ b } b' d' d'') : Wrote i hd (b ++ b') d d'' := by
  refine ⟨h'.names.trans h.names, h'.next.trans h.next, ?_, fun y hy => ?_, h.was, ?_, fun j hj => ?_⟩
  · rw [h'.inode, h.inode]
    simp only [List.length_append, patch_append]
  · rw [h'.inodes y hy, h.inodes y hy]
  · rw [h'.handle, List.append_assoc]
  · rw [h'.handles j hj, h.handles j hj]

/-- Nothing is in the buffer of a file that nothing has been put into, and never more than a block. -/
structure Fits (f : OFile) : Prop where
  empty : f.writing = false → f.buf = []
  length_le : f.buf.length ≤ 4096

theorem runs_flush (cfg : Config) {f : OFile} (hf : Fits f) (hhd : d.handles i = some hd) :
    ∃ d', Runs (performs cfg i) (flush f) d (.ret { f with writing := true, buf := [] }) d' ∧
      Wrote i hd f.buf d d' := by
  by_cases hbuf : f.buf = []
  · have hnone : flush f = .ret { f with writing := true, buf := [] } := by
      rw [flush, if_neg (by simp [hbuf])]
      rfl
    rw [hnone, hbuf]
    exact ⟨d, .refl _ _, .nil hhd⟩
  · have hwriting : f.writing = true := by simpa using mt hf.empty hbuf
    obtain ⟨d', hok⟩ : ∃ d', d.writebytes i f.buf = .ok d' := by
      rw [Disk.writebytes, hhd]
      exact ⟨_, rfl⟩
    obtain ⟨hd', hwrote⟩ := wrote_writebytes hok
    obtain rfl : hd' = hd := Option.some.inj (hwrote.was.symm.trans hhd)
    rw [flush, if_pos (by simp [hbuf, hwriting])]
    exact ⟨d', .call (.inl ⟨hok, rfl⟩) (.refl _ _), hwrote⟩

theorem runs_put1 (cfg : Config) {f : OFile} (hf : Fits f) (hhd : d.handles i = some hd) (c : UInt8) :
    ∃ f' d' y, Runs (performs cfg i) (put1 f c) d (.ret f') d' ∧ f'.path = f.path ∧ Fits f' ∧
      f'.buf ≠ [] ∧ Wrote i hd y d d' ∧ y ++ f'.buf = f.buf ++ [c] := by
  unfold put1
  by_cases hfull : !f.writing ∨ f.buf.length = 4096
  · rw [if_pos hfull]
    obtain ⟨d', hruns, hwrote⟩ := runs_flush cfg hf hhd
    exact ⟨_, d', f.buf, hruns.bind _, rfl, ⟨by simp, by simp⟩, by simp, hwrote, rfl⟩
  · rw [if_neg hfull]
    obtain ⟨hwriting, hlen⟩ := not_or.mp hfull
    refine ⟨_, d, [], .refl _ _, rfl, ⟨?_, ?_⟩, by simp, .nil hhd, rfl⟩
    · simpa using hwriting
    · have hle := hf.length_le
      simp only [List.length_append, List.length_singleton]
      omega

theorem runs_put (cfg : Config) {f : OFile} (hf : Fits f) (hhd : d.handles i = some hd) (s : Bytes) :
    ∃ f' d' y, Runs (performs cfg i) (put f s) d (.ret f') d' ∧ f'.path = f.path ∧ Fits f' ∧
      (s ≠ [] → f'.buf ≠ []) ∧ Wrote i hd y d d' ∧ y ++ f'.buf = f.buf ++ s := by
  induction s generalizing f d hd with
  | nil => exact ⟨f, d, [], .refl _ _, rfl, hf, by simp, .nil hhd, by simp⟩
  | cons c s ih =>
    obtain ⟨f₁, d₁, y₁, hruns₁, hpath₁, hf₁, hne₁, hwrote₁, hy₁⟩ := runs_put1 cfg hf hhd c
    obtain ⟨f', d', y, hruns, hpath, hf', hne, hwrote, hy⟩ := ih hf₁ hwrote₁.handle
    refine ⟨f', d', y₁ ++ y, ?_, hpath.trans hpath₁, hf', fun _ => ?_, hwrote₁.append hwrote, ?_⟩
    · have hput : put f (c :: s) = put1 f c >>= fun f => put f s := List.foldlM_cons
      rw [hput]
      exact (hruns₁.bind _).trans hruns
    · cases s with
      | nil =>
        have hret : (Prog.ret f₁ : P OFile) = .ret f' := by
          cases hruns
          rfl
        exact Prog.ret.inj hret ▸ hne₁
      | cons c' s => exact hne (by simp)
    · rw [List.append_assoc, hy, ← List.append_assoc, hy₁]
      simp

omit [DecidableEq ι] in
/-- Only directories matter for whether there is a parent. -/
theorem hasParent_of_others {path p : Bytes} (hothers : ∀ q, q ≠ p → d'.names q = d.names q)
    (hp : d.names p ≠ some .dir) (hne : p ≠ []) (hparent : d.hasParent path = true) :
    d'.hasParent path = true := by
  unfold Disk.hasParent at hparent ⊢
  cases hdir : dirname path with
  | none => rfl
  | some dir =>
    rw [hdir] at hparent
    dsimp only at hparent ⊢
    by_cases hd : dir = p
    · rw [hd] at hparent
      simp [hp, hne] at hparent
    · rw [hothers dir hd]
      exact hparent

/-- What is done when all has been put into the file. -/
def finish (cfg : Config) (hb : Hashable) (data : Bytes) (dst : OFile) : P Unit :=
  if cfg.recheckhash ∧ cfg.sha1 data ≠ hb.hash then
    .throw (.fatal "%s changed hash between test and write" [hb.path])
  else do
    let _ ← flush dst
    close
    rename (hb.hp ++ lit ".tmp") hb.hp

variable {hb : Hashable} {data : Bytes}

/-- The file is found to be missing, read, and opened in the repository. -/
theorem runs_open (hread : WasRead cfg hb.path data none)
    (hopen : d.openWrite i (hb.hp ++ lit ".tmp") = .ok d') :
    Runs (performs cfg i) (addHashable cfg hb) d
      (readHost hb.path >>= fun _ => put ⟨hb.hp ++ lit ".tmp", false, []⟩ data >>= finish cfg hb data)
      d' := by
  obtain ⟨n, hn⟩ := hread
  refine .call (r := .ok false) (.inl ⟨rfl, false, rfl, by simp⟩) ?_
  refine .call (r := .ok (data, none)) (.inl ⟨rfl, n, _, rfl, hn⟩) ?_
  exact .call (.inl ⟨hopen, rfl⟩) (.refl _ _)

/-- The rest of the file is written, and it gets its name. -/
theorem runs_finish (cfg : Config) (hb : Hashable) {f : OFile} (hf : Fits f) (hhd : d.handles i = some hd)
    (hhash : cfg.sha1 data = hb.hash) (hname : d.names (hb.hp ++ lit ".tmp") = some (.file x))
    (hnew : d.names hb.hp = none) (hparent : d.hasParent hb.hp = true) :
    ∃ d₁ d', Runs (performs cfg i) (finish cfg hb data f) d (.ret ()) d' ∧ Wrote i hd f.buf d d₁ ∧
      Moved (hb.hp ++ lit ".tmp") hb.hp x (d₁.close i) d' := by
  obtain ⟨d₁, hruns, hwrote⟩ := runs_flush cfg hf hhd
  have hparent₁ : (d₁.close i).hasParent hb.hp = true := by
    rw [← hparent, Disk.hasParent, Disk.hasParent, (closed_close i d₁).names, hwrote.names]
  obtain ⟨d', hok⟩ : ∃ d', (d₁.close i).rename (hb.hp ++ lit ".tmp") hb.hp = .ok d' := by
    rw [Disk.rename, (closed_close i d₁).names, hwrote.names, hname]
    dsimp only
    rw [if_neg (by rw [hnew]; simp), if_neg (by rw [hparent₁]; simp)]
    exact ⟨_, rfl⟩
  obtain ⟨y, hmoved⟩ := moved_rename hok
  obtain rfl : x = y := by
    have hwas := hmoved.was
    rw [(closed_close i d₁).names, hwrote.names, hname] at hwas
    simpa using hwas
  refine ⟨d₁, d', ?_, hwrote, hmoved⟩
  rw [finish, if_neg (by simp [hhash])]
  exact (hruns.bind _).trans (.call ⟨rfl, rfl⟩ (.call (.inl ⟨hok, rfl⟩) (.refl _ _)))

/-- **Two that copy the same may spoil it**: there is a run in which one of two backups copies the file
that is next for both and goes on with its own others, the other one is killed, and the object that the
first has made has zeros for all of the file but its last block.  The other one had emptied it before
that block was written. -/
theorem spoilt_together (cfg : ι → Config) (jobs : ι → List Hashable) (s : Store) (i j : ι)
    (hb : Hashable) (resti restj : List Hashable) (data : Bytes) (hij : i ≠ j)
    (hi : jobs i = hb :: resti) (hj : jobs j = hb :: restj)
    (hreadi : WasRead (cfg i) hb.path data none) (hreadj : WasRead (cfg j) hb.path data none)
    (hhash : (cfg i).sha1 data = hb.hash) (hdata : data ≠ []) (hparent : s.hasParent hb.hp = true)
    (hnone : s.lookup hb.hp = none) (htmp : s.lookup (hb.hp ++ lit ".tmp") = none) :
    ∃ P k, Pool.Steps (fun i => performs (cfg i) i) Disk.die (start cfg jobs s) P ∧
      P.procs i = some (resti.forM (addHashable (cfg i))) ∧ P.procs j = none ∧
      k < data.length ∧ data.length ≤ k + 4096 ∧
      P.shared.node hb.hp = some (.file (List.replicate k 0 ++ data.drop k)) := by
  have hne := tmp_ne hb.hp
  have hq := quiet_ofStore (ι := ι) s
  have hnames : ∀ p, s.lookup p = none → (Disk.ofStore s : Disk ι).names p = none := by
    intro p hp
    have hsome : ((Disk.ofStore s : Disk ι).names p).isSome = false := by
      rw [← isSome_node, hq.nodes, hp]
      rfl
    simpa using hsome
  have hfits : Fits ⟨hb.hp ++ lit ".tmp", false, []⟩ := ⟨fun _ => rfl, by simp⟩
  -- `i` opens the file and writes all but the last block
  obtain ⟨d₁, hopen₁⟩ : ∃ d₁, (Disk.ofStore s : Disk ι).openWrite i (hb.hp ++ lit ".tmp") = .ok d₁ := by
    have hp : (Disk.ofStore s : Disk ι).hasParent (hb.hp ++ lit ".tmp") = true := by
      rw [(hq.alone i (w := { store := s }) rfl).hasParent, Store.hasParent, dirname_tmp]
      exact hparent
    rw [Disk.openWrite, if_neg (by simp [hp]), hnames _ htmp]
    exact ⟨_, rfl⟩
  obtain ⟨x, ho⟩ := openedAt_openWrite hopen₁
  obtain ⟨f, d₂, y, hput, -, hf, hbuf, hwrote, hy⟩ := runs_put (cfg i) hfits ho.handle data
  have hy : y ++ f.buf = data := hy
  have hi₂ : Runs (performs (cfg i) i) (addHashable (cfg i) hb) (Disk.ofStore s)
      (finish (cfg i) hb data f) d₂ :=
    (runs_open hreadi hopen₁).trans (.call ⟨rfl, rfl⟩ (hput.bind _))
  have hname : d₂.names (hb.hp ++ lit ".tmp") = some (.file x) := by rw [hwrote.names, ho.name]
  have hsame : ∀ p, p ≠ hb.hp ++ lit ".tmp" → d₂.names p = (Disk.ofStore s : Disk ι).names p :=
    fun p hp => by rw [hwrote.names, ho.names p hp]
  have hparent₂ : d₂.hasParent hb.hp = true := by
    refine hasParent_of_others hsame (by rw [hnames _ htmp]; simp) (by simp [lit]) ?_
    rw [(hq.alone i (w := { store := s }) rfl).hasParent]
    exact hparent
  -- `j` opens the file, which empties it
  have hopen₃ : d₂.openWrite j (hb.hp ++ lit ".tmp") = .ok { d₂ with
      inodes := Function.update d₂.inodes x ⟨[], false⟩
      handles := Function.update (d₂.unfresh x) j (some ⟨x, hb.hp ++ lit ".tmp", [], true⟩) } := by
    have hp : d₂.hasParent (hb.hp ++ lit ".tmp") = true := by
      rw [← hparent₂, Disk.hasParent, Disk.hasParent, dirname_tmp]
    rw [Disk.openWrite, if_neg (by simp [hp]), hname]
  obtain ⟨d₃, hd₃⟩ : ∃ d₃, d₃ = { d₂ with
      inodes := Function.update d₂.inodes x ⟨[], false⟩
      handles := Function.update (d₂.unfresh x) j (some ⟨x, hb.hp ++ lit ".tmp", [], true⟩) } :=
    ⟨_, rfl⟩
  rw [← hd₃] at hopen₃
  have hhd₃ : d₃.handles i = some ⟨x, hb.hp ++ lit ".tmp", y, false⟩ := by
    rw [hd₃]
    refine (Function.update_of_ne hij _ _).trans ?_
    rw [Disk.unfresh, hwrote.handle]
    simp
  -- `i` writes the last block, where it would have been
  obtain ⟨d₄, d₅, hi₅, hwrote₄, hmoved⟩ := runs_finish (cfg i) hb hf hhd₃ hhash
    (by rw [hd₃]; exact hname) (by rw [hd₃]; exact (hsame _ hne.symm).trans (hnames _ hnone))
    (by rw [hd₃]; exact hparent₂)
  have hspoilt : d₅.node hb.hp = some (.file (List.replicate y.length 0 ++ data.drop y.length)) := by
    refine node_eq_file.mpr ⟨x, hmoved.name, ?_⟩
    rw [hmoved.inodes]
    refine (congrArg Stored.data hwrote₄.inode).trans ?_
    change patch (d₃.inodes x).data y.length f.buf = _
    have hempty : d₃.inodes x = ⟨[], false⟩ := by
      rw [hd₃]
      exact Function.update_self _ _ _
    rw [hempty, ← hy, List.drop_left]
    simp [patch, hbuf hdata]
  have hprocs : ∀ k rest, jobs k = hb :: rest → (start cfg jobs s).procs k =
      some (addHashable (cfg k) hb >>= fun _ => rest.forM (addHashable (cfg k))) := by
    intro k rest hk
    change some ((jobs k).forM _) = _
    rw [hk]
    rfl
  have hpool₂ := Runs.steps (fun i => performs (cfg i) i) Disk.die
    (hi₂.bind fun _ => resti.forM (addHashable (cfg i))) (hprocs i resti hi)
  have hpool₃ := hpool₂.trans (Runs.steps (fun i => performs (cfg i) i) Disk.die
    ((runs_open hreadj hopen₃).bind fun _ => restj.forM (addHashable (cfg j)))
    ((Function.update_of_ne hij.symm _ _).trans (hprocs j restj hj)))
  have hpool₅ := hpool₃.trans (Runs.steps (fun i => performs (cfg i) i) Disk.die
    (hi₅.bind fun _ => resti.forM (addHashable (cfg i)))
    ((Function.update_of_ne hij _ _).trans (Function.update_self i _ _)))
  refine ⟨_, y.length, hpool₅.tail (.stop (i := j)
    ((Function.update_of_ne hij.symm _ _).trans (Function.update_self j _ _)) ?_), ?_, ?_, ?_, ?_, ?_⟩
  · intro a ha
    cases ha
  · exact (Function.update_of_ne hij _ _).trans (Function.update_self i _ _)
  · exact Function.update_self j _ _
  · rw [← hy, List.length_append]
    have := List.length_pos_iff.mpr (hbuf hdata)
    omega
  · rw [← hy, List.length_append]
    have := hf.length_le
    omega
  · rw [node_die]
    exact hspoilt

/-- A file of two blocks. -/
def twoBlocks : Config :=
  { largeFile 1000 with
    env := fun n => { (largeFile 1000).env n with
      host := { ((largeFile 1000).env n).host with
        data := fun _ => .ok (List.replicate 5000 1, none) } } }

theorem spoilt_twoBlocks : ∃ (P : Pool Bool Call Res Stop Unit (Disk Bool)) (k : Nat),
    P.procs true = some (.ret ()) ∧ P.procs false = none ∧ 0 < k ∧
      P.shared.node largeJob.hp =
        some (.file (List.replicate k 0 ++ (List.replicate 5000 1).drop k)) := by
  obtain ⟨P, k, -, htrue, hfalse, -, hk, hnode⟩ := spoilt_together (fun _ => twoBlocks)
    (fun _ => [largeJob]) ((∅ : Store).insert (objectDir (lit "repo") largeJob.hash) .dir) true false
    largeJob [] [] (List.replicate 5000 1) (by decide) rfl rfl ⟨0, rfl⟩ ⟨0, rfl⟩ rfl
    (List.ne_nil_of_length_pos (by rw [List.length_replicate]; decide))
    (by decide +kernel) (by decide +kernel) (by decide +kernel)
  rw [List.length_replicate] at hk
  exact ⟨P, k, htrue, hfalse, by omega, hnode⟩

end Hbackup.Shared
