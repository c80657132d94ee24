import Hbackup.Sftp.Equiv.Bookkeeping

/-!
# What operations leave behind

Between two operations the ids waited for are those of the existence probes and those in the
queues of the files (`Tidy []`); within an operation, also those in its variables.  Every operation
keeps the books of these, whether it returns or raises an `SftpFileError`.
-/

namespace Hbackup.Sftp

open ProgramLogic List

variable {server : Nat → Request → Reply}

/-- The books are in order when the ids `held` are waited for besides those of the client. -/
def Tidy (held : List UInt32) (c : Client) : Prop := Kept (held ++ c.owned) c

/-- An operation that raises an `SftpFileError` leaves the books in order. -/
def AfterStop : Stop → Client → Prop
  | .error .., c => Tidy [] c
  | .blocked, _ => True
  | .fatal _, _ => True

/-- An operation, begun with the books in order, leaves them so. -/
def KeepsTidy {α : Type} (m : S α) : Prop :=
  ∀ c, Tidy [] c → wp m (fun _ c' => Tidy [] c') AfterStop c

/-! ### Primitive steps -/

theorem Tidy.wp_newid {held : List UInt32} {c : Client} (h : Tidy held c) (E : Stop → Client → Prop) :
    wp newid (fun id c' => Tidy held c' ∧ Unused id c' ∧ Waits c c') E c := by
  refine wp_mono (Kept.wp_newid h) ?_ (fun _ _ h => h.elim)
  rintro id c' ⟨hk, hu, hw⟩
  exact ⟨by rwa [Tidy, hw.owned], hu, hw⟩

theorem Tidy.wp_send {held : List UInt32} {id : UInt32} {c : Client} (h : Tidy held c)
    (hid : Unused id c) (req : Request) (E : Stop → Client → Prop) :
    wp (send server id req) (fun _ c' => Tidy (id :: held) c' ∧ Waits c c') E c := by
  refine wp_mono (Kept.wp_send h hid req) ?_ (fun _ _ h => h.elim)
  rintro _ c' ⟨hk, hw⟩
  exact ⟨by rwa [Tidy, hw.owned], hw⟩

theorem Tidy.wp_await {held : List UInt32} {id : UInt32} {c : Client} (h : Tidy (id :: held) c) :
    wp (await server id) (fun _ c' => Tidy held c' ∧ Unused id c' ∧ Waits c c') AfterStop c := by
  refine wp_mono (Kept.wp_await h (mem_append_left _ mem_cons_self)) ?_ ?_
  · rintro r c' ⟨hk, hu, hw⟩
    rw [cons_append, erase_cons_head] at hk
    exact ⟨by rwa [Tidy, hw.owned], hu, hw⟩
  · rintro stop c' rfl
    trivial

theorem Tidy.wp_ignore {held : List UInt32} {id : UInt32} {c : Client} (h : Tidy (id :: held) c)
    (E : Stop → Client → Prop) :
    wp (ignore id) (fun _ c' => Tidy held c' ∧ Waits c c') E c := by
  refine wp_mono (Kept.wp_ignore h (mem_append_left _ mem_cons_self)) ?_ (fun _ _ h => h.elim)
  rintro _ c' ⟨hk, hw⟩
  rw [cons_append, erase_cons_head] at hk
  exact ⟨by rwa [Tidy, hw.owned], hw⟩

/-- A new id, and a request under it. -/
theorem Tidy.wp_newid_send {held : List UInt32} {c : Client} (h : Tidy held c) (req : Request)
    {α : Type} {m : UInt32 → S α} {Q : α → Client → Prop} {E : Stop → Client → Prop}
    (hm : ∀ id c', Tidy (id :: held) c' → Waits c c' → wp (m id) Q E c') :
    wp (do
      let id ← newid
      send server id req
      m id) Q E c := by
  rw [wp_bind]
  refine wp_mono (h.wp_newid E) ?_ (fun _ _ h => h)
  rintro id c₁ ⟨h₁, hu, hw₁⟩
  rw [wp_bind]
  refine wp_mono (h₁.wp_send hu req E) ?_ (fun _ _ h => h)
  rintro _ c₂ ⟨h₂, hw₂⟩
  exact hm id c₂ h₂ (hw₁.trans hw₂)

/-- `ignore(closehandle(handle))`. -/
theorem Tidy.wp_ignore_closehandle {held : List UInt32} {c : Client} (h : Tidy held c)
    (server : Nat → Request → Reply) (handle : Bytes) (E : Stop → Client → Prop) :
    wp (do ignore (← closehandle server handle)) (fun _ c' => Tidy held c' ∧ Waits c c') E c := by
  rw [wp_bind, closehandle]
  refine h.wp_newid_send _ fun id c₁ h₁ hw₁ => ?_
  rw [wp_pure]
  refine wp_mono (h₁.wp_ignore E) ?_ (fun _ _ h => h)
  rintro _ c₂ ⟨h₂, hw₂⟩
  exact ⟨h₂, hw₁.trans hw₂⟩

/-- `check` changes nothing. -/
theorem wp_check {what : String} {path : Bytes} {reply : Reply} {allow_eof : Bool} {c : Client}
    {Q : Unit → Client → Prop} (hQ : Q () c) (h : Tidy [] c) :
    wp (check what path reply allow_eof) Q AfterStop c := by
  unfold check
  split
  · rw [wp_ite]
    split_ifs
    · exact h
    · exact hQ
  · trivial

/-- The ids waited for, apart from those of one file. -/
theorem owned_set {c : Client} {k : Nat} {f : SftpFile} (h : c.files[k]? = some (some f)) :
    ∃ rest, c.owned.Perm (f.queued ++ rest) ∧ ∀ f' : Option SftpFile,
      Client.owned { c with files := c.files.set k f' } ~ (f'.map SftpFile.queued).getD [] ++ rest := by
  obtain ⟨hk, hf⟩ := List.getElem?_eq_some_iff.mp h
  let ids : List (Option SftpFile) → List UInt32 :=
    fun l => l.flatMap fun f => (f.map SftpFile.queued).getD []
  have hsplit : ∀ f' : Option SftpFile, c.files.set k f' =
      c.files.take k ++ f' :: c.files.drop (k + 1) := fun f' => set_eq_take_append_cons_drop.trans
    (if_pos hk)
  have hmove : ∀ (a b q r : List UInt32), a ++ (b ++ (q ++ r)) ~ q ++ (a ++ (b ++ r)) := by
    intro a b q r
    calc a ++ (b ++ (q ++ r)) = (a ++ b) ++ (q ++ r) := by rw [append_assoc]
      _ ~ q ++ ((a ++ b) ++ r) := perm_append_comm_assoc _ _ _
      _ = q ++ (a ++ (b ++ r)) := by rw [append_assoc]
  have hset : ∀ f' : Option SftpFile, Client.owned { c with files := c.files.set k f' } ~
      (f'.map SftpFile.queued).getD [] ++ (c.existence_inflight.map Prod.fst ++
        (ids (c.files.take k) ++ ids (c.files.drop (k + 1)))) := by
    intro f'
    unfold Client.owned
    simp only [hsplit f', flatMap_append, flatMap_cons]
    exact hmove _ _ _ _
  refine ⟨_, ?_, hset⟩
  have hsame := hset (some f)
  rw [show c.files.set k (some f) = c.files by rw [← hf, set_getElem_self]] at hsame
  exact hsame

/-- Ids move between a file's queues and the variables of an operation. -/
theorem Tidy.setFile {held : List UInt32} {k : Nat} {f : SftpFile} {c : Client}
    (h : Tidy held c) (held' : List UInt32) (f' : SftpFile) (hf : c.files[k]? = some (some f))
    (hp : held ++ f.queued ~ held' ++ f'.queued) :
    Tidy held' { c with files := c.files.set k (some f') } := by
  obtain ⟨rest, hrest, hset⟩ := owned_set hf
  refine Kept.perm (held ++ c.owned) h ?_
  calc held ++ c.owned ~ held ++ (f.queued ++ rest) := hrest.append_left held
    _ = held ++ f.queued ++ rest := (append_assoc _ _ _).symm
    _ ~ held' ++ f'.queued ++ rest := hp.append_right rest
    _ = held' ++ (f'.queued ++ rest) := append_assoc _ _ _
    _ ~ _ := (hset (some f')).symm.append_left held'

theorem wp_getFile_stop {k : Nat} {c : Client} {Q : SftpFile → Client → Prop}
    (h : ∀ f, c.files[k]? = some (some f) → Q f c) : wp (getFile k) Q AfterStop c := by
  rw [getFile, wp_bind, wp_get]
  split
  · rename_i f hf
    exact h f hf
  · trivial

/-! ### Files -/

theorem Tidy.wp_fillQueue {k space : Nat} : ∀ (turns : Nat) {c : Client}, Tidy [] c →
    wp (fillQueue server k space turns) (fun _ c' => Tidy [] c') AfterStop c
  | 0, _, h => h
  | turns + 1, c, h => by
    rw [fillQueue, wp_bind]
    refine wp_getFile_stop fun f hf => ?_
    rw [wp_ite]
    split_ifs
    swap
    · exact h
    rw [wp_bind]
    refine wp_mono (h.wp_newid AfterStop) ?_ (fun _ _ h => h)
    rintro id c₁ ⟨h₁, hu, hw⟩
    rw [wp_bind, wp_setFile, wp_bind]
    have hf₁ : c₁.files[k]? = some (some f) := by rw [hw.files, hf]
    have h₂ := h₁.setFile [] { f with readoffset := f.readoffset + UInt64.ofNat space } hf₁
      (Perm.refl _)
    have hu₂ : Unused id _ := hu
    refine wp_mono (h₂.wp_send hu₂ _ AfterStop) ?_ (fun _ _ h => h)
    rintro _ c₃ ⟨h₃, -⟩
    rw [wp_bind]
    refine wp_getFile_stop fun f₃ hf₃ => ?_
    refine (h₃.setFile [] { f₃ with readqueue := f₃.readqueue ++ [id] } hf₃
      ?_).wp_fillQueue turns
    simp only [SftpFile.queued, append_assoc]
    change id :: (f₃.readqueue ++ f₃.writequeue) ~ f₃.readqueue ++ id :: f₃.writequeue
    exact perm_middle.symm

/-- Reads in the queue are ignored. -/
theorem Tidy.wp_ignoreQueue {k : Nat} : ∀ (turns : Nat) {c : Client}, Tidy [] c →
    wp (ignoreQueue k turns) (fun _ c' => Tidy [] c') AfterStop c
  | 0, _, h => h
  | turns + 1, c, h => by
    rw [ignoreQueue, wp_bind]
    refine wp_getFile_stop fun f hf => ?_
    cases hq : f.readqueue with
    | nil => exact h
    | cons id rest =>
      simp only [wp_bind]
      -- take the id off the queue first: the other order comes to the same
      have h₁ : Tidy [id] { c with files := c.files.set k (some { f with readqueue := rest }) } := by
        refine h.setFile _ _ hf ?_
        simp only [SftpFile.queued, hq]
        exact Perm.refl _
      have h₂ := h₁.wp_ignore AfterStop
      rw [ignore, wp_modify] at h₂ ⊢
      exact Tidy.wp_ignoreQueue turns h₂.1

theorem Tidy.wp_refill {c : Client} (h : Tidy [] c) (k space : Nat) :
    wp (refill server k space) (fun _ c' => Tidy [] c') AfterStop c := by
  rw [refill, wp_bind]
  refine wp_getFile_stop fun f hf => ?_
  rw [wp_ite]
  split_ifs
  · exact h.wp_fillQueue _
  · exact h

theorem Tidy.wp_rebuffer {c : Client} (h : Tidy [] c) (k : Nat) :
    wp (rebuffer server k) (fun _ c' => Tidy [] c') AfterStop c := by
  rw [rebuffer, wp_bind]
  refine wp_getFile_stop fun f hf => ?_
  split
  swap
  · exact h
  rename_i id rest hbuf hq
  rw [wp_bind, wp_setFile, wp_bind]
  have h₁ := h.setFile [id] { f with readqueue := rest } hf (by
    simp only [SftpFile.queued, hq]
    exact Perm.refl _)
  refine wp_mono h₁.wp_await ?_ (fun _ _ h => h)
  rintro reply c₂ ⟨h₂, -, -⟩
  split
  · rw [wp_bind]
    refine wp_getFile_stop fun f₂ hf₂ => ?_
    exact h₂.setFile _ _ hf₂ (Perm.refl _)
  · rw [wp_bind]
    refine wp_check ?_ h₂
    rw [wp_bind]
    refine wp_mono (h₂.wp_ignoreQueue _) (fun _ c₃ h₃ => ?_) (fun _ _ h => h)
    rw [wp_bind]
    refine wp_getFile_stop fun f₃ hf₃ => ?_
    exact h₃.setFile _ _ hf₃ (Perm.refl _)

theorem keepsTidy_readbytes (k space : Nat) : KeepsTidy (readbytes server k space) := by
  intro c h
  rw [readbytes, wp_bind]
  refine wp_mono (h.wp_refill k space) (fun _ c₁ h₁ => ?_) (fun _ _ h => h)
  rw [wp_bind]
  refine wp_mono (h₁.wp_rebuffer k) (fun _ c₂ h₂ => ?_) (fun _ _ h => h)
  rw [wp_bind]
  refine wp_getFile_stop fun f hf => ?_
  exact h₂.setFile _ _ hf (Perm.refl _)

/-- The reply to the first write is collected for it and not for another. -/
theorem Tidy.wp_synchronize_one {c : Client} (h : Tidy [] c) (k : Nat) (id : Option UInt32) :
    wp (synchronize_one server k id) (fun _ c' => Tidy [] c') AfterStop c := by
  rw [synchronize_one, wp_bind]
  refine wp_getFile_stop fun f hf => ?_
  cases hq : f.writequeue with
  | nil => exact h
  | cons front rest =>
    simp only
    rw [wp_bind, record, wp_modify, wp_bind]
    obtain ⟨others, hothers, hset⟩ := owned_set hf
    have hqueued : f.queued = f.readqueue ++ front :: rest := by rw [SftpFile.queued, hq]
    -- what the books are kept of, the first write's id in front
    have hperm : c.owned ~ front :: (f.readqueue ++ rest ++ others) := by
      refine hothers.trans ?_
      rw [hqueued, append_assoc, append_assoc]
      exact perm_middle
    set c₁ : Client := { c with log := .reaped (id.getD front) front :: c.log }
    set f' : SftpFile := { f with writequeue := f.writequeue.erase (id.getD front) }
    have h₁ : Kept (front :: (f'.queued ++ others)) c₁ := by
      intro hl
      have he : id.getD front = front := hl _ mem_cons_self
      refine (h hl.tail).perm ?_
      simp only [f', SftpFile.queued, he, hq, erase_cons_head]
      exact hperm
    refine wp_mono (h₁.wp_await mem_cons_self) ?_ (fun stop c' hb => by rw [hb]; trivial)
    rintro reply c₂ ⟨h₂, -, hw⟩
    rw [erase_cons_head] at h₂
    have hf₂ : c₂.files[k]? = some (some f) := by rw [hw.files]; exact hf
    rw [wp_bind, wp_getFile hf₂, wp_bind, wp_setFile]
    have h₃ : Tidy [] { c₂ with files := c₂.files.set k (some f') } := by
      refine Kept.perm (f'.queued ++ others) h₂ ?_
      have hsame : Client.owned { c₂ with files := c₂.files.set k (some f') } =
          Client.owned { c with files := c.files.set k (some f') } := by
        rw [Client.owned, Client.owned, hw.files, hw.existence_inflight]
      rw [nil_append, hsame]
      exact (hset (some f')).symm
    exact wp_check h₃ h₃

theorem Tidy.wp_reapReady {k : Nat} : ∀ (turns : Nat) {c : Client}, Tidy [] c →
    wp (reapReady server k turns) (fun _ c' => Tidy [] c') AfterStop c
  | 0, _, h => h
  | turns + 1, c, h => by
    rw [reapReady, wp_bind]
    refine wp_getFile_stop fun f hf => ?_
    rw [wp_bind, wp_get]
    split
    · exact h
    · rw [wp_bind]
      exact wp_mono (h.wp_synchronize_one k _) (fun _ _ h₁ => h₁.wp_reapReady turns)
        (fun _ _ h => h)

theorem keepsTidy_writebytes (k : Nat) (buf : Bytes) : KeepsTidy (writebytes server k buf) := by
  intro c h
  rw [writebytes, wp_ite]
  split_ifs
  · exact h
  rw [wp_bind]
  refine wp_getFile_stop fun f hf => ?_
  refine h.wp_newid_send _ fun id c₁ h₁ _ => ?_
  rw [wp_bind]
  refine wp_getFile_stop fun f₁ hf₁ => ?_
  rw [wp_bind, wp_setFile]
  refine Tidy.wp_reapReady _ (h₁.setFile _ _ hf₁ ?_)
  change id :: f₁.queued ~ f₁.readqueue ++ (f₁.writequeue ++ [id])
  rw [← append_assoc]
  exact (perm_append_singleton id f₁.queued).symm

theorem Tidy.wp_synchronizeLoop {k : Nat} : ∀ (turns : Nat) {c : Client}, Tidy [] c →
    wp (synchronizeLoop server k turns) (fun _ c' => Tidy [] c') AfterStop c
  | 0, _, h => h
  | turns + 1, c, h => by
    rw [synchronizeLoop, wp_bind]
    refine wp_getFile_stop fun f hf => ?_
    rw [wp_ite]
    split_ifs
    · rw [wp_bind]
      exact wp_mono (h.wp_synchronize_one k none) (fun _ _ h₁ => h₁.wp_synchronizeLoop turns)
        (fun _ _ h => h)
    · exact h

theorem keepsTidy_synchronize (k : Nat) : KeepsTidy (synchronize server k) := by
  intro c h
  rw [synchronize, wp_bind]
  exact wp_getFile_stop fun f hf => h.wp_synchronizeLoop _

/-- A file is released with nothing in its queues. -/
theorem keepsTidy_release (k : Nat) : KeepsTidy (release k) := by
  intro c h
  rw [release, wp_bind]
  refine wp_getFile_stop fun f hf => ?_
  rw [wp_modify]
  intro hl
  have hleft : f.queued = [] := hl _ mem_cons_self
  obtain ⟨rest, hrest, hset⟩ := owned_set hf
  refine (h hl.tail).perm ?_
  rw [hleft, nil_append] at hrest
  exact hrest.trans (hset none).symm

theorem keepsTidy_destroy (k : Nat) : KeepsTidy (destroy server k) := by
  intro c h
  rw [destroy, wp_bind, wp_tryCatch]
  refine wp_mono (keepsTidy_synchronize k c h) (fun _ c₁ h₁ => ?_) fun stop c₁ h₁ => ?_
  · rw [wp_bind]
    refine wp_getFile_stop fun f hf => ?_
    have hignore := h₁.wp_ignore_closehandle server f.handle AfterStop
    rw [wp_bind] at hignore ⊢
    refine wp_mono hignore (fun id c₂ h₂ => ?_) (fun _ _ h => h)
    rw [wp_bind]
    exact wp_mono h₂ (fun _ c₃ h₃ => keepsTidy_release k c₃ h₃.1) (fun _ _ h => h)
  · cases stop with
    | error =>
      change wp (release k >>= fun _ => throw _) _ _ _
      rw [wp_bind]
      exact wp_mono (keepsTidy_release k c₁ h₁) (fun _ _ h => h) (fun _ _ h => h)
    | blocked => trivial
    | fatal => trivial

/-! ### The filesystem -/

/-- What `handleOf` does not change. -/
theorem wp_handleOf {what : String} {path : Bytes} {reply : Reply} {c : Client}
    {Q : Bytes → Client → Prop} (hQ : ∀ handle, Q handle c) (h : Tidy [] c) :
    wp (handleOf what path reply) Q AfterStop c := by
  unfold handleOf
  split
  · exact hQ _
  · rw [wp_bind]
    exact wp_check (hQ []) h

theorem keepsTidy_open (path : Bytes) (mode : OpenMode) : KeepsTidy (open_ server path mode) := by
  intro c h
  rw [open_]
  refine h.wp_newid_send _ fun id c₁ h₁ _ => ?_
  rw [wp_bind]
  refine wp_mono h₁.wp_await ?_ (fun _ _ h => h)
  rintro reply c₂ ⟨h₂, -, -⟩
  rw [wp_bind]
  refine wp_handleOf (fun handle => ?_) h₂
  rw [wp_bind, wp_get, wp_bind, wp_modify, wp_pure]
  have hsame : Client.owned { c₂ with files := c₂.files ++ [some { path, handle }] } = c₂.owned := by
    simp [Client.owned, SftpFile.queued]
  rw [Tidy, hsame]
  exact h₂

theorem keepsTidy_simple (what : String) (path : Bytes) (req : Request) :
    KeepsTidy (simple server what path req) := by
  intro c h
  rw [simple]
  refine h.wp_newid_send _ fun id c₁ h₁ _ => ?_
  rw [checkId, wp_bind]
  refine wp_mono h₁.wp_await ?_ (fun _ _ h => h)
  rintro reply c₂ ⟨h₂, -, -⟩
  exact wp_check h₂ h₂

/-- A handler that gives up or tries something else. -/
theorem KeepsTidy.tryCatch {α : Type} {m : S α} {handler : Stop → S α} (hm : KeepsTidy m)
    (hh : ∀ stop c, AfterStop stop c →
      wp (handler stop) (fun _ c' => Tidy [] c') AfterStop c) :
    KeepsTidy (tryCatch m handler) := by
  intro c h
  rw [wp_tryCatch]
  exact wp_mono (hm c h) (fun _ _ h => h) (fun stop c' h' => hh stop c' h')

theorem keepsTidy_rename (oldpath newpath : Bytes) :
    KeepsTidy (rename server oldpath newpath) := by
  intro c h
  rw [rename, wp_bind, wp_get, wp_ite]
  split_ifs
  · refine (keepsTidy_simple _ _ _).tryCatch (fun stop c' h' => ?_) c h
    cases stop with
    | error _ _ status =>
      simp only [wp_ite]
      split_ifs
      · rw [wp_bind, wp_modify]
        exact keepsTidy_simple _ _ _ _ h'
      · exact h'
    | blocked => trivial
    | fatal => trivial
  · exact keepsTidy_simple _ _ _ c h

theorem keepsTidy_remove (path : Bytes) : KeepsTidy (remove server path) := by
  refine (keepsTidy_simple _ _ _).tryCatch fun stop c h => ?_
  cases stop with
  | error _ _ status =>
    simp only [wp_ite]
    split_ifs
    · exact keepsTidy_simple _ _ _ _ h
    · exact h
  | blocked => trivial
  | fatal => trivial

theorem keepsTidy_prefigure_exists (path : Bytes) : KeepsTidy (prefigure_exists server path) := by
  intro c h
  rw [prefigure_exists]
  refine h.wp_newid_send _ fun id c₁ h₁ _ => ?_
  rw [wp_modify]
  refine Kept.perm ([id] ++ c₁.owned) h₁ ?_
  simp only [Client.owned, map_append, map_cons, map_nil, nil_append, append_assoc, cons_append]
  exact perm_middle.symm

theorem Tidy.wp_collectExistence : ∀ (turns : Nat) {c : Client}, Tidy [] c →
    wp (collectExistence server turns) (fun _ c' => Tidy [] c') AfterStop c
  | 0, _, h => h
  | turns + 1, c, h => by
    rw [collectExistence, wp_bind, wp_get]
    match hq : c.existence_inflight with
    | [] => exact h
    | (id, path) :: rest =>
      simp only
      rw [wp_bind]
      have howned : c.owned = id :: (rest.map Prod.fst ++
          c.files.flatMap fun f => (f.map SftpFile.queued).getD []) := by
        rw [Client.owned, hq]
        rfl
      rw [Tidy, nil_append, howned] at h
      refine wp_mono (Kept.wp_await h mem_cons_self) ?_ (fun stop c' hb => by rw [hb]; trivial)
      rintro reply c₁ ⟨h₁, -, hw⟩
      rw [erase_cons_head] at h₁
      rw [wp_bind, wp_modify]
      refine Tidy.wp_collectExistence turns ?_
      have hsame : Client.owned { c₁ with
          existence_inflight := c₁.existence_inflight.tail } = rest.map Prod.fst ++
          c.files.flatMap fun f => (f.map SftpFile.queued).getD [] := by
        rw [Client.owned, hw.files, hw.existence_inflight, hq]
        rfl
      rw [← hsame] at h₁
      exact h₁

theorem keepsTidy_exists (path : Bytes) :
    ∀ (turns : Nat), KeepsTidy (exists_ server path turns)
  | 0, _, _ => trivial
  | turns + 1, c, h => by
    rw [exists_, wp_bind, wp_get, wp_bind]
    refine wp_mono (h.wp_collectExistence _) (fun _ c₁ h₁ => ?_) (fun _ _ h => h)
    rw [wp_bind, wp_get]
    split
    · exact h₁
    · rw [wp_bind]
      exact wp_mono (keepsTidy_prefigure_exists path c₁ h₁)
        (fun _ c₂ h₂ => keepsTidy_exists path turns c₂ h₂) (fun _ _ h => h)

/-- `READDIR` is sent under an id whose reply has been collected. -/
theorem Tidy.wp_contentsLoop {path handle : Bytes} {id : UInt32} :
    ∀ (turns : Nat) (names : List Bytes) {c : Client}, Tidy [] c → Unused id c →
      wp (contentsLoop server path handle id turns names) (fun _ c' => Tidy [] c') AfterStop c
  | 0, _, _, _, _ => trivial
  | turns + 1, names, c, h, hu => by
    rw [contentsLoop, wp_bind]
    refine wp_mono (h.wp_send hu _ AfterStop) ?_ (fun _ _ h => h)
    rintro _ c₁ ⟨h₁, -⟩
    rw [wp_bind]
    refine wp_mono h₁.wp_await ?_ (fun _ _ h => h)
    rintro reply c₂ ⟨h₂, hu₂, -⟩
    split
    · exact Tidy.wp_contentsLoop turns _ h₂ hu₂
    · rw [wp_bind]
      exact wp_check h₂ h₂

theorem keepsTidy_contents (path : Bytes) : KeepsTidy (contents server path) := by
  intro c h
  rw [contents]
  refine h.wp_newid_send _ fun id c₁ h₁ _ => ?_
  rw [wp_bind]
  refine wp_mono h₁.wp_await ?_ (fun _ _ h => h)
  rintro reply c₂ ⟨h₂, hu₂, -⟩
  rw [wp_bind]
  refine wp_handleOf (fun handle => ?_) h₂
  rw [wp_bind, wp_get, wp_bind, wp_tryCatch]
  refine wp_mono (h₂.wp_contentsLoop _ _ hu₂) (fun names c₃ h₃ => ?_) fun stop c₃ h₃ => ?_
  · have hignore := h₃.wp_ignore_closehandle server handle AfterStop
    rw [wp_bind] at hignore ⊢
    refine wp_mono hignore (fun id c₄ h₄ => ?_) (fun _ _ h => h)
    rw [wp_bind]
    exact wp_mono h₄ (fun _ c₅ h₅ => h₅.1) (fun _ _ h => h)
  · cases stop with
    | error =>
      have hignore := Tidy.wp_ignore_closehandle h₃ server handle AfterStop
      change wp (closehandle server handle >>= fun id => ignore id >>= fun _ => throw _) _ _ _
      rw [wp_bind] at hignore ⊢
      refine wp_mono hignore (fun id c₄ h₄ => ?_) (fun _ _ h => h)
      rw [wp_bind]
      exact wp_mono h₄ (fun _ c₅ h₅ => h₅.1) (fun _ _ h => h)
    | blocked => trivial
    | fatal => trivial

theorem Tidy.wp_closeReply {c : Client} (h : Tidy [] c) (reply : Reply) (t' t : Filetype) :
    wp (closeReply server reply t' t) (fun _ c' => Tidy [] c') AfterStop c := by
  unfold closeReply
  split
  · rename_i handle
    have hignore := h.wp_ignore_closehandle server handle AfterStop
    rw [wp_bind] at hignore ⊢
    refine wp_mono hignore (fun id c₁ h₁ => ?_) (fun _ _ h => h)
    rw [wp_bind]
    exact wp_mono h₁ (fun _ c₂ h₂ => h₂.1) (fun _ _ h => h)
  · exact h

theorem keepsTidy_type (path : Bytes) : KeepsTidy (type server path) := by
  intro c h
  rw [type]
  refine h.wp_newid_send _ fun openfileid c₁ h₁ _ => ?_
  refine h₁.wp_newid_send _ fun opendirid c₂ h₂ _ => ?_
  refine h₂.wp_newid_send _ fun readlinkid c₃ h₃ _ => ?_
  -- the replies are awaited in the order of the requests
  replace h₃ : Tidy [openfileid, opendirid, readlinkid] c₃ := by
    refine Kept.perm ([readlinkid, opendirid, openfileid] ++ c₃.owned) h₃ ?_
    exact (reverse_perm [openfileid, opendirid, readlinkid]).append_right _
  rw [wp_bind]
  refine wp_mono h₃.wp_await ?_ (fun _ _ h => h)
  rintro readfilereply c₄ ⟨h₄, -, -⟩
  rw [wp_bind]
  refine wp_mono h₄.wp_await ?_ (fun _ _ h => h)
  rintro readdirreply c₅ ⟨h₅, -, -⟩
  rw [wp_bind]
  refine wp_mono h₅.wp_await ?_ (fun _ _ h => h)
  rintro readlinkreply c₆ ⟨h₆, -, -⟩
  have hmissing : wp (checkMissing path readfilereply) (fun _ c' => Tidy [] c') AfterStop c₆ := by
    unfold checkMissing
    split
    · rw [wp_ite]
      split_ifs
      · exact wp_check h₆ h₆
      · exact h₆
    · exact h₆
  rw [wp_bind]
  refine wp_mono hmissing (fun _ c₇ h₇ => ?_) (fun _ _ h => h)
  rw [wp_bind]
  refine wp_mono (h₇.wp_closeReply _ _ _) (fun t c₈ h₈ => ?_) (fun _ _ h => h)
  rw [wp_bind]
  refine wp_mono (h₈.wp_closeReply _ _ _) (fun t' c₉ h₉ => ?_) (fun _ _ h => h)
  split <;> exact h₉

/-! ### Whole runs -/

theorem KeepsTidy.discard {α : Type} {m : S α} (h : KeepsTidy m) : KeepsTidy (do let _ ← m) := by
  intro c hc
  rw [wp_bind]
  exact wp_mono (h c hc) (fun _ _ h => h) (fun _ _ h => h)

theorem keepsTidy_perform : ∀ op : Operation, KeepsTidy (perform server op)
  | .open_ path mode => (keepsTidy_open path mode).discard
  | .readbytes k space => (keepsTidy_readbytes k space).discard
  | .writebytes k buf => keepsTidy_writebytes k buf
  | .synchronize k => keepsTidy_synchronize k
  | .destroy k => keepsTidy_destroy k
  | .rename oldpath newpath => keepsTidy_rename oldpath newpath
  | .remove path => keepsTidy_remove path
  | .mkdir path _ => keepsTidy_simple _ path _
  | .prefigure_exists path => keepsTidy_prefigure_exists path
  | .exists_ path => (keepsTidy_exists path 2).discard
  | .contents path => (keepsTidy_contents path).discard
  | .type path => (keepsTidy_type path).discard

/-- Any operations, one after the other. -/
theorem keepsTidy_performAll (server : Nat → Request → Reply) (ops : List Operation) : KeepsTidy (performAll server ops) := by
  intro c h
  refine wp_forM (fun _ c => Tidy [] c) (fun _ op _ c' _ h' => ?_) h
  rw [wp_tryCatch]
  refine wp_mono (keepsTidy_perform op c' h') (fun _ _ h => h) fun stop c'' h'' => ?_
  cases stop with
  | error => exact h''
  | blocked => trivial
  | fatal => trivial

theorem tidy_start (schedule : List (Option Nat)) : Tidy [] { schedule } := fun _ =>
  ⟨nodup_nil, nodup_nil, nodup_nil, by simp [Client.owned], by simp, by simp, by simp⟩

/-- What is to be left when nothing is under way. -/
def NothingLeft (c : Client) : Prop :=
  c.ignored = [] ∧ ∀ r ∈ c.replies, r.1 ∈ c.existence_inflight.map Prod.fst

/-- No request is unanswered, and no file exists. -/
def Quiescent (c : Client) : Prop := c.outstanding = [] ∧ ∀ f ∈ c.files, f = none

instance (c : Client) : Decidable (NothingLeft c) := inferInstanceAs (Decidable (_ ∧ _))
instance (c : Client) : Decidable (Quiescent c) := inferInstanceAs (Decidable (_ ∧ _))

theorem Tidy.nothingLeft {c : Client} (h : Tidy [] c) (hl : Harmless c.log) (hq : Quiescent c) :
    NothingLeft c := by
  have hb := h hl
  have hfiles : (c.files.flatMap fun f => (f.map SftpFile.queued).getD []) = [] :=
    flatMap_eq_nil_iff.mpr fun f hf => by rw [hq.2 f hf]; rfl
  rw [nil_append, Client.owned, hfiles, append_nil, hq.1] at hb
  constructor
  · refine eq_nil_iff_forall_not_mem.mpr fun id hid => ?_
    exact not_mem_nil (hb.ignored_sent id hid).1
  · exact fun r hr => (hb.arrived r.1 (mem_map_of_mem hr)).1

/-- **Nothing is left behind** by a run of operations in which no id is ignored after its reply has
arrived, every file is released with empty queues, the reply to a write is collected for that
write, and no id is given out while it is in use. -/
theorem performAll_leaves_nothing (ops : List Operation) (schedule : List (Option Nat))
    {c : Client} (hrun : performAll server ops { schedule } = .ok () c) (hlog : Harmless c.log)
    (hquiet : Quiescent c) : NothingLeft c := by
  have h := keepsTidy_performAll server ops _ (tidy_start schedule)
  have htidy := wp_elim_ok h hrun
  exact htidy.nothingLeft hlog hquiet

/-! ### An empty file is read -/

/-- A server whose files are all empty. -/
def emptyFiles (_ : Nat) : Request → Reply
  | .OPEN .. => .HANDLE (lit "h")
  | .READ .. => .STATUS SSH_FX_EOF (lit "end of file")
  | _ => .STATUS SSH_FX_OK []

/-- A file is read to its end and closed, and then another operation performed. -/
def readEmpty : List Operation :=
  [.open_ (lit "f") .ReadOnly, .readbytes 0 1, .destroy 0, .mkdir (lit "d") 0o777]

/-- After the reply to `OPEN` and eight reads, `replies` arrive; the rest follow in order. -/
def readEmptySchedule (replies : List (Option Nat)) : List (Option Nat) :=
  [none, some 0] ++ List.replicate 8 none ++ replies ++ [none, none] ++ List.replicate 9 (some 0)

/-- The reply to the second read arrives before that to the first, which says that the file has
ended; the second read is then ignored, and its id stays in the ignored set. -/
theorem not_performAll_leaves_nothing :
    ¬ ∀ (server : Nat → Request → Reply) (ops : List Operation) (schedule : List (Option Nat))
      (c : Client), performAll server ops { schedule } = .ok () c → Quiescent c →
        NothingLeft c := by
  intro h
  have hrun : value? (performAll emptyFiles readEmpty)
      { schedule := readEmptySchedule [some 1, some 0] } = some () := by decide +kernel
  have hquiet : Quiescent (stateAfter (performAll emptyFiles readEmpty)
      { schedule := readEmptySchedule [some 1, some 0] }) := by decide +kernel
  have hleft : ¬ NothingLeft (stateAfter (performAll emptyFiles readEmpty)
      { schedule := readEmptySchedule [some 1, some 0] }) := by decide +kernel
  exact hleft (h _ _ _ _ (ok_of_value? hrun) hquiet)

/-- Replies in the order of the requests leave nothing behind. -/
theorem readEmpty_leaves_nothing :
    NothingLeft (stateAfter (performAll emptyFiles readEmpty)
      { schedule := readEmptySchedule [some 0] }) := by
  have hrun : value? (performAll emptyFiles readEmpty)
      { schedule := readEmptySchedule [some 0] } = some () := by decide +kernel
  refine performAll_leaves_nothing _ _ (ok_of_value? hrun) ?_ ?_
  · unfold Harmless
    decide +kernel
  · decide +kernel

end Hbackup.Sftp
