import Hbackup.Local
import Hbackup.Lib.ProgramLogic

/-!
# What a local file is given

`LocalFile::writebytes` ends whatever its writes take (`writebytes_returns`).  But every turn of its
loop passes `nbytes` bytes to `write`, and not those that are left: it writes its buffer, and nothing
else, exactly if the first write takes all of it (`writesBuffer_iff`).
-/

namespace Hbackup

open ProgramLogic

/-- The bytes that the calls have delivered. -/
def delivered (memory : Nat → UInt8) (calls : List WriteCall) : Bytes :=
  calls.flatMap fun c => (List.range c.taken).map fun i => memory (c.offset + i)

/-- `writebytes` delivers the bytes of its buffer in order, and passes no others to `write`. -/
def WritesBuffer (path : Bytes) (nbytes : Nat) (answer : Nat → Nat → Except Errno Nat) : Prop :=
  ∃ turns d, LocalFile.writebytes path turns nbytes { answer } = .ok () d ∧
    (∀ memory, delivered memory d.calls = (List.range nbytes).map memory) ∧
    ∀ c ∈ d.calls, c.offset + c.count ≤ nbytes

/-- Every write takes between 1 and all of the bytes it is passed. -/
def TakesSome (answer : Nat → Nat → Except Errno Nat) : Prop :=
  ∀ i count, 1 ≤ count → ∃ n, answer i count = .ok n ∧ 1 ≤ n ∧ n ≤ count

namespace LocalFile

variable {path : Bytes} {nbytes : Nat}

/-- A call of `write` is made. -/
theorem wp_write {answer : Nat → Nat → Except Errno Nat} (h : TakesSome answer) {count : Nat}
    (hcount : 1 ≤ count) (offset : Nat) {d : Descriptor} (hd : d.answer = answer) :
    wp (Descriptor.write path offset count)
      (fun n d' => answer d.calls.length count = .ok n ∧ 1 ≤ n ∧
        d' = { d with calls := d.calls ++ [⟨offset, count, n⟩] })
      (fun _ _ => False) d := by
  obtain ⟨n, hn, hpos, -⟩ := h d.calls.length count hcount
  rw [Descriptor.write, wp_bind, wp_get, hd, hn]
  exact ⟨rfl, hpos, by rw [← hd]⟩

/-- The loop takes a step forward each turn, and ends unless it has too few. -/
theorem wp_writebytesLoop {answer : Nat → Nat → Except Errno Nat} (h : TakesSome answer)
    (turns written : Nat) {d : Descriptor} (hd : d.answer = answer) :
    wp (writebytesLoop path nbytes turns written)
      (fun _ d' => d.calls <+: d'.calls ∧
        (written < nbytes → ∃ n, WriteCall.mk written nbytes n ∈ d'.calls))
      (fun _ _ => turns = 0 ∨ turns + written ≤ nbytes) d := by
  induction turns generalizing written d with
  | zero => exact .inl rfl
  | succ turns ih =>
    rw [writebytesLoop, wp_ite]
    split
    · rename_i hmore
      rw [wp_bind]
      refine wp_mono (wp_write h (by omega) written hd) ?_ fun _ _ hfalse => hfalse.elim
      rintro n d' ⟨-, hn, rfl⟩
      refine wp_mono (ih (written + n) hd) ?_ fun _ _ hfew => .inr (by omega)
      rintro _ d'' ⟨hpre, -⟩
      exact ⟨(List.prefix_append _ _).trans hpre, fun _ => ⟨n, hpre.mem (by simp)⟩⟩
    · rename_i hdone
      exact ⟨List.prefix_rfl, fun hmore => absurd hmore hdone⟩

/-- **`writebytes` ends.** -/
theorem writebytes_returns {answer : Nat → Nat → Except Errno Nat} (h : TakesSome answer)
    (path : Bytes) (nbytes : Nat) :
    ∃ d, writebytes path (nbytes + 1) nbytes { answer } = .ok () d := by
  have hloop : wp (writebytesLoop path nbytes (nbytes + 1) 0) (fun _ _ => True) (fun _ _ => False)
      { answer } :=
    wp_mono (wp_writebytesLoop h (nbytes + 1) 0 rfl) (fun _ _ _ => trivial) fun _ _ hfew => by omega
  obtain ⟨_, d, hd, -⟩ := wp_returns hloop
  exact ⟨d, hd⟩

end LocalFile

open LocalFile

/-- **`writebytes` writes its buffer exactly if the first write takes all of it.** -/
theorem writesBuffer_iff (path : Bytes) (nbytes : Nat) (answer : Nat → Nat → Except Errno Nat)
    (h : TakesSome answer) :
    WritesBuffer path nbytes answer ↔ nbytes = 0 ∨ answer 0 nbytes = .ok nbytes := by
  constructor
  · rintro ⟨turns, d, hrun, -, hinside⟩
    by_contra hnot
    rw [not_or] at hnot
    obtain ⟨hne, hshort⟩ := hnot
    obtain ⟨n, hn, hpos, hle⟩ := h 0 nbytes (by omega)
    have hlt : n < nbytes := lt_of_le_of_ne hle fun he => hshort (he ▸ hn)
    -- the second call starts behind the first, and asks for as much
    have hsecond : ∀ turns, wp (writebytesLoop path nbytes turns 0)
        (fun _ d => ∃ k, WriteCall.mk n nbytes k ∈ d.calls) (fun _ _ => True) { answer } := by
      intro turns
      cases turns with
      | zero => exact trivial
      | succ turns =>
        rw [writebytesLoop, wp_ite, if_pos (by omega), wp_bind]
        refine wp_mono (wp_write h (by omega) 0 rfl) ?_ fun _ _ _ => trivial
        rintro n' d' ⟨hn', -, rfl⟩
        obtain rfl : n = n' := Except.ok.inj (hn.symm.trans hn')
        refine wp_mono (wp_writebytesLoop h turns (0 + n) rfl) ?_ fun _ _ _ => trivial
        rintro _ d'' ⟨-, hcall⟩
        rw [Nat.zero_add] at hcall
        exact hcall hlt
    obtain ⟨k, hk⟩ := wp_elim_ok (hsecond turns) hrun
    have := hinside _ hk
    dsimp only at this
    omega
  · rintro (rfl | hall)
    · exact ⟨1, { answer }, rfl, fun _ => rfl, by simp⟩
    · by_cases hzero : nbytes = 0
      · subst hzero
        exact ⟨1, { answer }, rfl, fun _ => rfl, by simp⟩
      -- one call, and then nothing is left
      have hrun : wp (writebytesLoop path nbytes 2 0)
          (fun _ d => d.calls = [⟨0, nbytes, nbytes⟩]) (fun _ _ => False) { answer } := by
        rw [writebytesLoop, wp_ite, if_pos (by omega), wp_bind]
        refine wp_mono (wp_write h (by omega) 0 rfl) ?_ fun _ _ hfalse => hfalse.elim
        rintro n d' ⟨hn, -, rfl⟩
        obtain rfl : nbytes = n := Except.ok.inj (hall.symm.trans hn)
        rw [writebytesLoop, wp_ite, if_neg (by omega)]
        rfl
      obtain ⟨_, d, hd, hcalls⟩ := wp_returns hrun
      refine ⟨2, d, hd, fun memory => ?_, fun c hc => ?_⟩
      · simp [delivered, hcalls]
      · rw [hcalls, List.mem_singleton] at hc
        rw [hc, Nat.zero_add]

/-- A write that takes one byte of two is followed by one that passes a byte behind the buffer. -/
theorem not_writesBuffer : ¬ ∀ (path : Bytes) (nbytes : Nat) (answer : Nat → Nat → Except Errno Nat),
    TakesSome answer → WritesBuffer path nbytes answer := by
  intro h
  have htakes : TakesSome fun _ _ => .ok 1 := fun _ count hcount => ⟨1, rfl, le_rfl, hcount⟩
  obtain ⟨turns, d, hrun, -, hinside⟩ := h [] 2 (fun _ _ => .ok 1) htakes
  have hcalls : ∀ turns, wp (LocalFile.writebytes [] turns 2)
      (fun _ d => WriteCall.mk 1 2 1 ∈ d.calls) (fun _ _ => True) { answer := fun _ _ => .ok 1 } := by
    intro turns
    match turns with
    | 0 => exact trivial
    | 1 => exact trivial
    | 2 => exact trivial
    | turns + 3 => exact (by decide : WriteCall.mk 1 2 1 ∈ [WriteCall.mk 0 2 1, WriteCall.mk 1 2 1])
  have hmem := wp_elim_ok (hcalls turns) hrun
  exact absurd (hinside _ hmem) (by decide)

/-- Writes that take everything. -/
theorem writesBuffer_whole : WritesBuffer (lit "f") 3 fun _ count => .ok count :=
  (writesBuffer_iff (lit "f") 3 (fun _ count => .ok count)
    fun _ count hcount => ⟨count, rfl, hcount, le_rfl⟩).mpr (.inr rfl)

end Hbackup
