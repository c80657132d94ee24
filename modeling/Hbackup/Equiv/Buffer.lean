import Hbackup.Buffer
import Hbackup.Equiv.File
import Hbackup.Lib.ProgramLogic

/-!
# The buffer does not show

What a `File` still has to return is what is in its buffer and then what is left on the device, and
every way of reading takes its piece off the front of that (`Left`, `Takes`).  What a `File` has been
given is what is on the device and then what is in its buffer (`Given`), so that a flush brings all
of it to the device.
-/

namespace Hbackup

open ProgramLogic

/-! ### Devices -/

/-- A device that gives its bytes in short reads; `sizes` says how much the next calls give. -/
structure Source where
  rest : Bytes
  sizes : Nat → Nat

/-- Between 1 and `space` bytes, and none only at the end. -/
def Source.readbytes (space : Nat) : EStateM FileStop Source Bytes := do
  let s ← get
  let n := max 1 (min (s.sizes 0) space)
  set { s with rest := s.rest.drop n, sizes := fun i => s.sizes (i + 1) }
  return s.rest.take n

/-- A file opened for reading. -/
def Source.virtual : Virtual Source where
  readbytes := Source.readbytes
  writebytes _ := throw (.exn .readOnlyFile)
  synchronize := return

/-- A device that stores what it is given. -/
def sink : Virtual Bytes where
  readbytes _ := throw (.exn .writeOnlyFile)
  writebytes bytes := modify (· ++ bytes)
  synchronize := return

theorem Source.wp_readbytes {space : Nat} (hspace : 1 ≤ space) (s : Source) :
    wp (Source.readbytes space)
      (fun bytes s' => bytes ++ s'.rest = s.rest ∧ bytes.length ≤ space ∧
        (bytes = [] → s.rest = []))
      (fun _ _ => False) s := by
  have hpos : 1 ≤ max 1 (min (s.sizes 0) space) := Nat.le_max_left _ _
  have hle : max 1 (min (s.sizes 0) space) ≤ space := by omega
  rw [Source.readbytes, wp_bind, wp_get, wp_bind, wp_set, wp_pure]
  refine ⟨List.take_append_drop _ _, (List.length_take_le _ _).trans hle, fun h => ?_⟩
  rcases List.take_eq_nil_iff.mp h with h0 | hnil
  · omega
  · exact hnil

namespace File

variable {δ α : Type} {v : Virtual δ}

theorem wp_onDevice (m : EStateM FileStop δ α) (Q : α → File δ → Prop) (E : FileStop → File δ → Prop)
    (f : File δ) :
    wp (onDevice m) Q E f ↔
      wp m (fun a dev => Q a { f with dev }) (fun e dev => E e { f with dev }) f.dev := by
  unfold wp onDevice
  cases m f.dev <;> rfl

theorem wp_require (c : Bool) (what : String) (Q : Unit → File δ → Prop)
    (E : FileStop → File δ → Prop) (f : File δ) :
    wp (require c what) Q E f ↔ if c then Q () f else E (.assertion what) f := by
  unfold require
  cases c <;> rfl

/-! ### Reading -/

/-- `r` is still to be returned. -/
structure Left (f : File Source) (r : Bytes) : Prop where
  mode : f.mode ≠ .writing
  fresh : f.mode = .none → f.buf = [] ∧ f.eof = false
  ended : f.eof → f.buf = [] ∧ f.dev.rest = []
  left : f.buf ++ f.dev.rest = r

theorem Left.opened (content : Bytes) (sizes : Nat → Nat) : Left { dev := ⟨content, sizes⟩ } content :=
  ⟨by simp, fun _ => ⟨rfl, rfl⟩, by simp, rfl⟩

variable {f : File Source} {r : Bytes}

/-- The buffer is filled, and stays empty only at the end. -/
theorem Left.wp_fill (h : Left f r) (hempty : f.buf = []) :
    wp (fill Source.virtual)
      (fun n f' => Left f' r ∧ f'.mode = .reading ∧ n = f'.buf.length ∧ (n = 0 → r = []))
      (fun _ _ => False) f := by
  have hleft : f.dev.rest = r := by
    have := h.left
    rwa [hempty] at this
  rw [fill, wp_bind, wp_get, wp_bind, wp_require, if_pos (by simpa using h.mode), wp_bind, wp_modify,
    wp_bind, wp_get, wp_ite]
  split
  · rename_i heof
    rw [wp_pure]
    refine ⟨⟨by simp, by simp, h.ended, h.left⟩, rfl, ?_, fun _ => ?_⟩
    · rw [hempty]
      rfl
    · rw [← hleft, (h.ended heof).2]
  rename_i heof
  rw [wp_bind, wp_onDevice]
  refine wp_mono (Source.wp_readbytes (by decide) f.dev) ?_ fun _ _ hfalse => hfalse
  rintro bytes dev ⟨hrest, -, hnil⟩
  rw [wp_bind, wp_modify, wp_pure]
  refine ⟨⟨by simp, by simp, fun hend => ?_, hrest.trans hleft⟩, rfl, rfl, fun hzero => ?_⟩
  · have hbytes : bytes = [] := by simpa using hend
    have := hnil hbytes
    rw [hbytes, this] at hrest
    exact ⟨hbytes, hrest⟩
  · rw [← hleft]
    exact hnil (List.length_eq_zero_iff.mp hzero)

/-- With `n` characters in the buffer: it is not empty, or this is the end. -/
theorem Left.wp_takeChar {n : Nat} (h : Left f r) (hzero : n = 0 → r = [])
    (hpos : n ≠ 0 → f.buf ≠ [] ∧ f.mode = .reading) :
    wp (if n = 0 then (return none) else do
        match (← get).buf with
        | [] => return none
        | c :: buf =>
          modify fun f => { f with buf }
          return some c : FileM Source (Option UInt8))
      (fun c f' => Left f' r.tail ∧ c = r.head?) (fun _ _ => False) f := by
  rw [wp_ite]
  split
  · rename_i hn
    obtain rfl := hzero hn
    exact ⟨h, rfl⟩
  rename_i hn
  obtain ⟨hne, hmode⟩ := hpos hn
  obtain ⟨c, buf, hbuf⟩ := List.exists_cons_of_ne_nil hne
  rw [wp_bind, wp_get, hbuf]
  have hleft := h.left
  rw [hbuf] at hleft
  subst hleft
  refine ⟨⟨h.mode, by simp [hmode], fun heof => ?_, rfl⟩, rfl⟩
  rw [(h.ended heof).1] at hbuf
  cases hbuf

/-- A character is taken. -/
theorem Left.wp_getch (h : Left f r) :
    wp (getch Source.virtual) (fun c f' => Left f' r.tail ∧ c = r.head?) (fun _ _ => False) f := by
  rw [getch, wp_bind, wp_get, wp_bind, fillIf, wp_ite]
  split
  · rename_i hempty
    have hempty : f.buf = [] := List.length_eq_zero_iff.mp (by simpa using hempty)
    refine wp_mono (h.wp_fill hempty) ?_ fun _ _ hfalse => hfalse
    rintro n f' ⟨h', hmode, hn, hzero⟩
    refine h'.wp_takeChar hzero fun hne => ⟨?_, hmode⟩
    rw [hn] at hne
    exact fun hnil => hne (by rw [hnil]; rfl)
  · rename_i hne
    have hne : f.buf ≠ [] := by simpa using hne
    refine h.wp_takeChar (n := 1) (by simp) fun _ => ⟨hne, ?_⟩
    cases hmode : f.mode with
    | reading => rfl
    | writing => exact absurd hmode h.mode
    | none => exact absurd (h.fresh hmode).1 hne

/-- The loop is that of a file without a buffer. -/
theorem Left.wp_getlineLoop {turns : Nat} (hturns : r.length < turns) (h : Left f r) (acc : Bytes) :
    wp (getlineLoop Source.virtual turns acc)
      (fun p f' => ∃ r', Left f' r' ∧ InFile.getlineLoop none r acc = .ok (p, r'))
      (fun _ _ => False) f := by
  induction turns generalizing f r acc with
  | zero => omega
  | succ turns ih =>
    rw [getlineLoop, wp_bind]
    refine wp_mono h.wp_getch ?_ fun _ _ hfalse => hfalse
    rintro c f' ⟨h', rfl⟩
    cases r with
    | nil => exact ⟨[], h', rfl⟩
    | cons c r =>
      dsimp only [List.head?_cons]
      rw [InFile.getlineLoop, wp_ite]
      split
      · exact ⟨r, h', rfl⟩
      · exact ih (by simpa using hturns) h' _

/-- **`getline` of a buffered file is `getline` of its bytes.** -/
theorem Left.wp_getline {turns : Nat} (hturns : r.length < turns) (h : Left f r) :
    wp (getline Source.virtual turns)
      (fun line f' => ∃ r', Left f' r' ∧ InFile.getline ⟨r, none⟩ = .ok (line, ⟨r', none⟩))
      (fun _ _ => False) f := by
  rw [getline, wp_bind]
  refine wp_mono (h.wp_getlineLoop hturns []) ?_ fun _ _ hfalse => hfalse
  rintro ⟨line, newline⟩ f' ⟨r', h', hloop⟩
  refine ⟨r', h', ?_⟩
  simp only [InFile.getline, hloop, bind, Except.bind, pure, Except.pure]

/-- One turn of `getbytes`. -/
theorem Left.wp_getpiece {max : Nat} (hmax : 1 ≤ max) (h : Left f r) (hmode : f.mode = .reading) :
    wp (getpiece Source.virtual max)
      (fun bytes f' => ∃ r', Left f' r' ∧ f'.mode = .reading ∧ bytes ++ r' = r ∧ bytes.length ≤ max ∧
        (bytes = [] → r = [] ∧ f'.buf = [] ∧ f'.dev.rest = []))
      (fun _ _ => False) f := by
  rw [getpiece, wp_bind, wp_get, wp_ite]
  split
  · rename_i hne
    rw [wp_bind, wp_modify, wp_pure]
    refine ⟨_, ⟨h.mode, by simp [hmode], fun heof => ?_, rfl⟩, hmode, ?_, List.length_take_le _ _, ?_⟩
    · rw [(h.ended heof).1] at hne
      exact absurd rfl hne
    · dsimp only
      rw [← List.append_assoc, List.take_append_drop]
      exact h.left
    · intro hnil
      rcases List.take_eq_nil_iff.mp hnil with h0 | hnil
      · omega
      · rw [hnil] at hne
        exact absurd rfl hne
  · rename_i hempty
    have hbuf : f.buf = [] := List.length_eq_zero_iff.mp (by omega)
    have hleft := h.left
    rw [hbuf, List.nil_append] at hleft
    rw [wp_onDevice]
    refine wp_mono (Source.wp_readbytes hmax f.dev) ?_ fun _ _ hfalse => hfalse
    rintro bytes dev ⟨hrest, hlen, hnil⟩
    have hrest' : bytes = [] → dev.rest = [] := fun hb => by
      rw [hb, hnil hb] at hrest
      exact hrest
    refine ⟨dev.rest, ⟨h.mode, by simp [hmode], fun heof => ⟨hbuf, ?_⟩, by simp [hbuf]⟩, hmode,
      hrest.trans hleft, hlen, fun hb => ⟨hleft ▸ hnil hb, hbuf, hrest' hb⟩⟩
    rw [(h.ended heof).2] at hrest
    exact (List.append_eq_nil_iff.mp hrest).2

/-- What `getbytes` takes: a piece of at most `max` bytes, all that can be had with `all`, and
nothing only at the end. -/
structure Piece (max : Nat) (all : Bool) (r bytes r' : Bytes) : Prop where
  split : bytes ++ r' = r
  le : bytes.length ≤ max
  nonempty : bytes = [] → r = []
  whole : all → bytes.length = max ∨ r' = []

theorem Left.wp_getbytesLoop {all : Bool} {turns max : Nat} (hturns : r.length < turns)
    (hmax : 1 ≤ max) (h : Left f r) (hmode : f.mode = .reading) (dst : Bytes) :
    wp (getbytesLoop Source.virtual all turns max dst)
      (fun b f' => ∃ bytes r', b = dst ++ bytes ∧ Left f' r' ∧ Piece max all r bytes r')
      (fun _ _ => False) f := by
  induction turns generalizing f r max dst with
  | zero => omega
  | succ turns ih =>
    -- the turn, once the buffer has been filled
    have hturn : ∀ f, Left f r → f.mode = .reading →
        wp (do
          let bytes ← getpiece Source.virtual max
          modify fun f => { f with eof := f.eof || bytes.length = 0 }
          if all ∧ !(← get).eof ∧ max - bytes.length > 0 then
            getbytesLoop Source.virtual all turns (max - bytes.length) (dst ++ bytes)
          else return dst ++ bytes)
        (fun b f' => ∃ bytes r', b = dst ++ bytes ∧ Left f' r' ∧ Piece max all r bytes r')
        (fun _ _ => False) f := by
      intro f h hmode
      rw [wp_bind]
      refine wp_mono (h.wp_getpiece hmax hmode) ?_ fun _ _ hfalse => hfalse
      rintro bytes f₁ ⟨r₁, h₁, hmode₁, hsplit, hle, hnil⟩
      rw [wp_bind, wp_modify, wp_bind, wp_get, wp_ite]
      have h₂ : Left { f₁ with eof := f₁.eof || bytes.length = 0 } r₁ := by
        refine ⟨h₁.mode, by simp [hmode₁], fun heof => ?_, h₁.left⟩
        rcases (Bool.or_eq_true _ _).mp heof with heof | hzero
        · exact h₁.ended heof
        · exact (hnil (by simpa using hzero)).2
      split
      · rename_i hmore
        obtain ⟨hall, heof, hroom⟩ := hmore
        have hne : bytes ≠ [] := by
          rintro rfl
          simp at heof
        have hpos : 0 < bytes.length := List.length_pos_iff.mpr hne
        have hlen : bytes.length + r₁.length = r.length := by rw [← hsplit, List.length_append]
        refine wp_mono (ih (by omega) (by omega) h₂ hmode₁ _) ?_ fun _ _ hfalse => hfalse
        rintro b f₃ ⟨more, r₃, rfl, h₃, hpiece⟩
        refine ⟨bytes ++ more, r₃, List.append_assoc _ _ _, h₃, ?_, ?_, ?_, fun _ => ?_⟩
        · rw [List.append_assoc, hpiece.split, hsplit]
        · have := hpiece.le
          rw [List.length_append]
          omega
        · exact fun hb => absurd (List.append_eq_nil_iff.mp hb).1 hne
        · refine (hpiece.whole hall).imp_left fun hlen => ?_
          rw [List.length_append]
          omega
      · rename_i hstop
        refine ⟨bytes, r₁, rfl, h₂, hsplit, hle, fun hb => (hnil hb).1, fun hall => ?_⟩
        by_cases heof : (f₁.eof || decide (bytes.length = 0)) = true
        · right
          rcases (Bool.or_eq_true _ _).mp heof with heof | hzero
          · have hleft := h₁.left
            rw [(h₁.ended heof).1, (h₁.ended heof).2] at hleft
            exact hleft.symm
          · have hb : bytes = [] := by simpa using hzero
            rw [hb, (hnil hb).1] at hsplit
            exact hsplit
        · left
          have : ¬ max - bytes.length > 0 := fun hroom => hstop ⟨hall, by simpa using heof, hroom⟩
          omega
    rw [getbytesLoop, wp_bind, wp_get, wp_bind, fillIf, wp_ite]
    split
    · rename_i hfill
      have hempty : f.buf = [] := by
        simp only [decide_eq_true_eq] at hfill
        exact List.length_eq_zero_iff.mp hfill.1
      refine wp_mono (h.wp_fill hempty) ?_ fun _ _ hfalse => hfalse
      rintro n f₁ ⟨h₁, hmode₁, -, hzero⟩
      rw [wp_ite]
      split
      · rename_i hn
        obtain rfl := hzero hn
        exact ⟨[], [], (List.append_nil _).symm, h₁, rfl, by simp, fun _ => rfl, fun _ => .inr rfl⟩
      · exact hturn f₁ h₁ hmode₁
    · rw [wp_pure, wp_ite, if_neg (by decide)]
      exact hturn f h hmode

/-- **`getbytes` takes a piece.** -/
theorem Left.wp_getbytes {all : Bool} {turns max : Nat} (hturns : r.length < turns) (hmax : 1 ≤ max)
    (h : Left f r) :
    wp (getbytes Source.virtual turns max all)
      (fun bytes f' => ∃ r', Left f' r' ∧ Piece max all r bytes r') (fun _ _ => False) f := by
  have hloop : ∀ f, Left f r → f.mode = .reading →
      wp (getbytesLoop Source.virtual all turns max [])
        (fun bytes f' => ∃ r', Left f' r' ∧ Piece max all r bytes r') (fun _ _ => False) f := by
    intro f h hmode
    refine wp_mono (h.wp_getbytesLoop hturns hmax hmode []) ?_ fun _ _ hfalse => hfalse
    rintro _ f' ⟨bytes, r', rfl, h', hpiece⟩
    exact ⟨r', h', hpiece⟩
  rw [getbytes, wp_bind, wp_get, wp_bind, fillIf, wp_ite]
  split
  · rename_i hmode
    have hnone : f.mode = .none := by
      cases hm : f.mode with
      | none => rfl
      | reading => simp [hm] at hmode
      | writing => exact absurd hm h.mode
    refine wp_mono (h.wp_fill (h.fresh hnone).1) ?_ fun _ _ hfalse => hfalse
    rintro n f₁ ⟨h₁, hmode₁, -, hzero⟩
    rw [wp_ite]
    split
    · rename_i hn
      obtain rfl := hzero hn
      exact ⟨[], h₁, rfl, by simp, fun _ => rfl, fun _ => .inr rfl⟩
    · exact hloop f₁ h₁ hmode₁
  · rename_i hmode
    rw [wp_pure, wp_ite, if_neg (by decide)]
    exact hloop f h (by simpa using hmode)

/-! ### Writing -/

/-- A device that has been given `t` and has not stopped with `E` satisfies `P t`. -/
structure Accepts (v : Virtual δ) (P : Bytes → δ → Prop) (E : FileStop → δ → Prop) : Prop where
  writebytes : ∀ {t dev} (block : Bytes), P t dev →
    wp (v.writebytes block) (fun _ => P (t ++ block)) E dev
  synchronize : ∀ {t dev}, P t dev → wp v.synchronize (fun _ => P t) E dev

theorem accepts_sink : Accepts sink (fun t dev => dev = t) fun _ _ => False where
  writebytes := by
    rintro t dev block rfl
    rfl
  synchronize h := h

/-- `text` has been put, and is on the device up to what is in the buffer. -/
structure Given (P : Bytes → δ → Prop) (f : File δ) (text : Bytes) : Prop where
  mode : f.mode ≠ .reading
  fresh : f.mode = .none → f.buf = []
  given : ∃ t, P t f.dev ∧ t ++ f.buf = text

variable {P : Bytes → δ → Prop} {E : FileStop → δ → Prop} {g : File δ} {text : Bytes}

theorem Given.opened {dev : δ} (h : P [] dev) : Given P { dev } [] :=
  ⟨by simp, fun _ => rfl, [], h, rfl⟩

/-- **A flush brings all that has been put to the device.** -/
theorem Given.wp_flush (h : Given P g text) (hv : Accepts v P E) :
    wp (flush v) (fun _ g' => Given P g' text ∧ P text g'.dev ∧ g'.mode = .writing ∧ g'.buf = [])
      (fun e g' => E e g'.dev) g := by
  -- the buffer is on the device, and the rest of `flush` empties it
  have hrest : ∀ g : File δ, P text g.dev →
      wp (do
          modify fun f => { f with mode := .writing, buf := [] }
          onDevice v.synchronize : FileM δ Unit)
        (fun _ g' => Given P g' text ∧ P text g'.dev ∧ g'.mode = .writing ∧ g'.buf = [])
        (fun e g' => E e g'.dev) g := by
    intro g hdev
    rw [wp_bind, wp_modify, wp_onDevice]
    refine wp_mono (hv.synchronize hdev) (fun _ dev h => ?_) fun _ _ h => h
    exact ⟨⟨by simp, by simp, text, h, by simp⟩, h, rfl, rfl⟩
  obtain ⟨t, hdev, ht⟩ := h.given
  rw [flush, wp_bind, wp_get, wp_bind, wp_require, if_pos (by simpa using h.mode), wp_bind,
    writeBuffer, wp_bind, wp_get, wp_ite]
  split
  · rw [wp_onDevice]
    refine wp_mono (hv.writebytes g.buf hdev) (fun _ dev h => hrest _ ?_) fun _ _ h => h
    rwa [ht] at h
  · rename_i hskip
    have hempty : g.buf = [] := by
      by_cases hmode : g.mode = .writing
      · by_contra hne
        exact hskip ⟨hmode, by simpa using hne⟩
      · cases hm : g.mode with
        | none => exact h.fresh hm
        | reading => exact absurd hm h.mode
        | writing => exact absurd hm hmode
    rw [hempty, List.append_nil] at ht
    rw [wp_pure]
    exact hrest g (ht ▸ hdev)

/-- A character goes to the buffer, which is never overrun. -/
theorem Given.wp_putc (h : Given P g text) (hv : Accepts v P E) (c : UInt8) :
    wp (putc v c) (fun _ g' => Given P g' (text ++ [c])) (fun e g' => E e g'.dev) g := by
  have hput : ∀ g : File δ, Given P g text → g.mode = .writing →
      Given P { g with buf := if g.mode = .reading then g.buf.drop 1 else g.buf ++ [c] }
        (text ++ [c]) := by
    intro g h hmode
    obtain ⟨t, hdev, ht⟩ := h.given
    refine ⟨h.mode, by simp [hmode], t, hdev, ?_⟩
    rw [if_neg h.mode, ← ht, List.append_assoc]
  rw [putc, wp_bind, makeRoom, wp_bind, wp_get, wp_ite]
  split
  · refine wp_mono (h.wp_flush hv) ?_ fun _ _ h => h
    rintro _ g' ⟨h', -, hmode, -⟩
    exact hput g' h' hmode
  · rename_i hroom
    refine hput g h ?_
    cases hm : g.mode with
    | none => simp [atTop, hm] at hroom
    | reading => exact absurd hm h.mode
    | writing => rfl

theorem Given.wp_put (h : Given P g text) (hv : Accepts v P E) (s : Bytes) :
    wp (put v s) (fun _ g' => Given P g' (text ++ s)) (fun e g' => E e g'.dev) g := by
  refine wp_forM (fun pre g' => Given P g' (text ++ pre)) ?_ (by simpa using h)
  intro pre c post g' _ h'
  rw [← List.append_assoc]
  exact h'.wp_putc hv c

end File

/-! ### Any calls -/

/-- A call on a file that is being read. -/
inductive ReadOp
  | getch
  | getline
  | getbytes (max : Nat) (all : Bool)

/-- What such a call returns. -/
inductive ReadAnswer
  | char (c : Option UInt8)
  | line (l : Option Bytes)
  | bytes (b : Bytes)

/-- The call. -/
def ReadOp.call (turns : Nat) : ReadOp → FileM Source ReadAnswer
  | .getch => return .char (← File.getch Source.virtual)
  | .getline => return .line (← File.getline Source.virtual turns)
  | .getbytes max all => return .bytes (← File.getbytes Source.virtual turns max all)

/-- Calls in order, and what they return. -/
def ReadOp.calls (turns : Nat) : List ReadOp → FileM Source (List ReadAnswer)
  | [] => return []
  | op :: ops => do
    let a ← op.call turns
    let as ← calls turns ops
    return a :: as

/-- What a call may return when `r` is left, and what it leaves. -/
inductive Takes : ReadOp → Bytes → ReadAnswer → Bytes → Prop
  | char (c : UInt8) (r : Bytes) : Takes .getch (c :: r) (.char (some c)) r
  | charEnd : Takes .getch [] (.char none) []
  | line {l : Bytes} (h : 10 ∉ l) (r : Bytes) : Takes .getline (l ++ 10 :: r) (.line (some l)) r
  | lastLine {l : Bytes} (h : 10 ∉ l) (hne : l ≠ []) : Takes .getline l (.line (some l)) []
  | lineEnd : Takes .getline [] (.line none) []
  | all (max : Nat) (r : Bytes) : Takes (.getbytes max true) r (.bytes (r.take max)) (r.drop max)
  | some {max : Nat} {b r : Bytes} (hle : b.length ≤ max) (hne : b = [] → r = []) :
      Takes (.getbytes max false) (b ++ r) (.bytes b) r

/-- Calls that take one piece after the other. -/
inductive TakesAll : List ReadOp → Bytes → List ReadAnswer → Bytes → Prop
  | nil (r : Bytes) : TakesAll [] r [] r
  | cons {op : ReadOp} {ops : List ReadOp} {r r' r'' : Bytes} {a : ReadAnswer}
      {as : List ReadAnswer} (h : Takes op r a r') (hs : TakesAll ops r' as r'') :
      TakesAll (op :: ops) r (a :: as) r''

open File

theorem takes_getline {r r' : Bytes} {l : Option Bytes}
    (h : InFile.getline ⟨r, none⟩ = .ok (l, ⟨r', none⟩)) : Takes .getline r (.line l) r' := by
  rcases lines_cases r with ⟨line, rest, hline, rfl⟩ | hline
  · rw [getline_line none hline] at h
    cases h
    exact .line hline _
  · by_cases hne : r = []
    · subst hne
      rw [getline_eof] at h
      cases h
      exact .lineEnd
    · rw [getline_last hline hne] at h
      cases h
      exact .lastLine hline hne

theorem takes_getbytes {max : Nat} {all : Bool} {r b r' : Bytes} (h : Piece max all r b r') :
    Takes (.getbytes max all) r (.bytes b) r' := by
  obtain ⟨rfl, hle, hne, hwhole⟩ := h
  cases all with
  | false => exact .some hle fun hb => (List.append_eq_nil_iff.mp (hne hb)).2
  | true =>
    rcases hwhole rfl with rfl | rfl
    · have h := Takes.all b.length (b ++ r')
      rwa [List.take_left, List.drop_left] at h
    · have h := Takes.all max (b ++ [])
      rw [List.append_nil, List.take_of_length_le hle, List.drop_of_length_le hle] at h
      rwa [List.append_nil]

/-- **Every call takes its piece.** -/
theorem ReadOp.wp_call {op : ReadOp} (hop : ∀ max all, op = .getbytes max all → 1 ≤ max) {turns : Nat}
    {f : File Source} {r : Bytes} (hturns : r.length < turns) (h : Left f r) :
    wp (op.call turns) (fun a f' => ∃ r', Left f' r' ∧ Takes op r a r') (fun _ _ => False) f := by
  cases op with
  | getch =>
    rw [ReadOp.call, wp_bind]
    refine wp_mono h.wp_getch ?_ fun _ _ hfalse => hfalse
    rintro c f' ⟨h', rfl⟩
    refine ⟨r.tail, h', ?_⟩
    cases r with
    | nil => exact .charEnd
    | cons c r => exact .char c r
  | getline =>
    rw [ReadOp.call, wp_bind]
    refine wp_mono (h.wp_getline hturns) ?_ fun _ _ hfalse => hfalse
    rintro l f' ⟨r', h', hline⟩
    exact ⟨r', h', takes_getline hline⟩
  | getbytes max all =>
    rw [ReadOp.call, wp_bind]
    refine wp_mono (h.wp_getbytes hturns (hop max all rfl)) ?_ fun _ _ hfalse => hfalse
    rintro b f' ⟨r', h', hpiece⟩
    exact ⟨r', h', takes_getbytes hpiece⟩

theorem Takes.length_le {op : ReadOp} {r r' : Bytes} {a : ReadAnswer} (h : Takes op r a r') :
    r'.length ≤ r.length := by
  cases h with
  | char c => exact Nat.le_succ _
  | charEnd => exact le_rfl
  | line => simp only [List.length_append, List.length_cons]; omega
  | lastLine => exact Nat.zero_le _
  | lineEnd => exact le_rfl
  | all => rw [List.length_drop]; omega
  | some => rw [List.length_append]; omega

theorem ReadOp.wp_calls {ops : List ReadOp}
    (hops : ∀ max all, ReadOp.getbytes max all ∈ ops → 1 ≤ max) {turns : Nat} {f : File Source}
    {r : Bytes} (hturns : r.length < turns) (h : Left f r) :
    wp (ReadOp.calls turns ops) (fun as f' => ∃ r', Left f' r' ∧ TakesAll ops r as r')
      (fun _ _ => False) f := by
  induction ops generalizing f r with
  | nil => exact ⟨r, h, .nil r⟩
  | cons op ops ih =>
    rw [ReadOp.calls, wp_bind]
    refine wp_mono (ReadOp.wp_call (fun max all hop => hops max all (hop ▸ List.mem_cons_self))
      hturns h) ?_ fun _ _ hfalse => hfalse
    rintro a f₁ ⟨r₁, h₁, htakes⟩
    rw [wp_bind]
    have hrest : ∀ max all, ReadOp.getbytes max all ∈ ops → 1 ≤ max := fun max all hm =>
      hops max all (List.mem_cons_of_mem _ hm)
    refine wp_mono (ih hrest (htakes.length_le.trans_lt hturns) h₁) ?_ fun _ _ hfalse => hfalse
    rintro as f₂ ⟨r₂, h₂, hall⟩
    exact ⟨r₂, h₂, .cons htakes hall⟩

/-- A call on a file that is being written. -/
inductive WriteOp
  | putc (c : UInt8)
  | put (s : Bytes)
  | putf (s : Bytes)
  | flush

def WriteOp.call : WriteOp → FileM Bytes Unit
  | .putc c => File.putc sink c
  | .put s => File.put sink s
  | .putf s => File.putf sink s
  | .flush => File.flush sink

/-- What the call puts. -/
def WriteOp.bytes : WriteOp → Bytes
  | .putc c => [c]
  | .put s => s
  | .putf s => s
  | .flush => []

theorem WriteOp.wp_call (op : WriteOp) {g : File Bytes} {text : Bytes}
    (h : Given (fun t dev => dev = t) g text) :
    wp op.call (fun _ g' => Given (fun t dev => dev = t) g' (text ++ op.bytes)) (fun _ _ => False) g := by
  cases op with
  | putc c => exact h.wp_putc accepts_sink c
  | put s => exact h.wp_put accepts_sink s
  | putf s => exact h.wp_put accepts_sink s
  | flush =>
    refine wp_mono (h.wp_flush accepts_sink) ?_ fun _ _ hfalse => hfalse
    rintro _ g' ⟨h', -⟩
    rw [WriteOp.bytes, List.append_nil]
    exact h'

theorem WriteOp.wp_calls (ops : List WriteOp) {g : File Bytes} {text : Bytes}
    (h : Given (fun t dev => dev = t) g text) :
    wp (ops.forM WriteOp.call) (fun _ g' => Given (fun t dev => dev = t) g' (text ++ ops.flatMap WriteOp.bytes))
      (fun _ _ => False) g := by
  refine wp_forM (fun pre g' => Given (fun t dev => dev = t) g' (text ++ pre.flatMap WriteOp.bytes)) ?_ (by simpa using h)
  intro pre op post g' _ h'
  rw [List.flatMap_append, ← List.append_assoc, List.flatMap_singleton]
  exact op.wp_call h'

/-- **Buffered access is transparent.**  Whatever is put and then flushed is on the device; and what
is on a device, whatever its reads are, is returned piece by piece. -/
theorem buffered_access_transparent :
    (∀ ops : List WriteOp, ∃ g, (do ops.forM WriteOp.call; File.flush sink) { dev := [] } = .ok () g ∧
      g.dev = ops.flatMap WriteOp.bytes) ∧
    ∀ (content : Bytes) (sizes : Nat → Nat) (ops : List ReadOp) (turns : Nat),
      (∀ max all, ReadOp.getbytes max all ∈ ops → 1 ≤ max) → content.length < turns →
      ∃ as f, ReadOp.calls turns ops { dev := ⟨content, sizes⟩ } = .ok as f ∧
        ∃ r, TakesAll ops content as r := by
  refine ⟨fun ops => ?_, fun content sizes ops turns hops hturns => ?_⟩
  · have hrun : wp (do ops.forM WriteOp.call; File.flush sink)
        (fun _ g => g.dev = ops.flatMap WriteOp.bytes) (fun _ _ => False) { dev := [] } := by
      rw [wp_bind]
      refine wp_mono (WriteOp.wp_calls ops (.opened rfl)) ?_ fun _ _ hfalse => hfalse
      intro _ g h
      exact wp_mono (h.wp_flush accepts_sink) (fun _ _ h' => h'.2.1) fun _ _ hfalse => hfalse
    obtain ⟨_, g, hg, hdev⟩ := wp_returns hrun
    exact ⟨g, hg, hdev⟩
  · obtain ⟨as, f, hcalls, r, -, hall⟩ := wp_returns (ReadOp.wp_calls hops hturns (.opened content sizes))
    exact ⟨as, f, hcalls, r, hall⟩

/-- A line, a block and a character, read one byte at a time. -/
theorem reads_one_by_one :
    ∃ as f, ReadOp.calls 7 [.getline, .getbytes 2 true, .getch] { dev := ⟨lit "ab\ncde", fun _ => 1⟩ } =
      .ok as f ∧ ∃ r, TakesAll [.getline, .getbytes 2 true, .getch] (lit "ab\ncde") as r :=
  buffered_access_transparent.2 (lit "ab\ncde") (fun _ => 1) [.getline, .getbytes 2 true, .getch] 7
    (by simp) (by decide)

end Hbackup
