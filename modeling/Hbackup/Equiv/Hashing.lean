import Hbackup.Equiv.Buffer
import Hbackup.Equiv.Sha1
import Hbackup.Hashing

/-!
# The digest of a file

What a `Hash` has taken in is the concatenation of the blocks written to it (`Absorbed.write`).  The
windows of a mapped file and the blocks of one that is read are both cuts of its content, so that
`hashfile` finds the digest of the content either way (`hashfile_agrees`).
-/

namespace Hbackup

open ProgramLogic

variable {c : SHA1Context} {m : Bytes}

/-! ### The class `Hash` -/

/-- A block whose length is that of an `unsigned`. -/
theorem Absorbed.write (h : Absorbed c m) {l : Bytes} (hl : l.length < 2 ^ 32)
    (hmax : m.length + l.length < 2 ^ 61) :
    ∃ c', Hash.write c l l.length = .ok c' ∧ Absorbed c' (m ++ l) := by
  have hlength : l.length = (UInt32.ofNat l.length).toNat := (UInt32.toNat_ofNat_of_lt' hl).symm
  obtain ⟨c', hinput, h'⟩ := h.input hlength hmax
  refine ⟨c', ?_, h'⟩
  rw [Hash.write, hinput]
  rfl

/-- A longer block is not taken in as a whole; of one whose length is a multiple of 2^32, nothing is. -/
theorem write_long (c : SHA1Context) {l : Bytes} (h : 2 ^ 32 ∣ l.length) :
    Hash.write c l l.length = .ok c := by
  have hzero : UInt32.ofNat l.length = 0 := by
    apply UInt32.toNat.inj
    rw [UInt32.toNat_ofNat', Nat.mod_eq_zero_of_dvd h]
    rfl
  rw [Hash.write, hzero]
  rfl

theorem Absorbed.value (h : Absorbed c m) : Hash.value c = .ok (Sha1.sha1 m) := by
  rw [Hash.value, h.result]

/-- Blocks, one behind the other. -/
theorem Absorbed.blocks {blocks : List Bytes} (h : Absorbed c m)
    (hblocks : ∀ b ∈ blocks, b.length < 2 ^ 32) (hmax : m.length + blocks.flatten.length < 2 ^ 61) :
    ∃ c', blocks.foldlM (fun ho block => Hash.write ho block block.length) c = .ok c' ∧
      Absorbed c' (m ++ blocks.flatten) := by
  induction blocks generalizing c m with
  | nil =>
    rw [List.flatten_nil, List.append_nil]
    exact ⟨c, rfl, h⟩
  | cons b blocks ih =>
    rw [List.flatten_cons, List.length_append] at hmax
    have hlen : (m ++ b).length = m.length + b.length := List.length_append
    obtain ⟨c₁, hwrite, h₁⟩ := h.write (hblocks b List.mem_cons_self) (by omega)
    obtain ⟨c', hrest, h'⟩ := ih h₁ (fun b hb => hblocks b (List.mem_cons_of_mem _ hb)) (by omega)
    refine ⟨c', ?_, ?_⟩
    · rw [List.foldlM_cons, hwrite]
      exact hrest
    · rw [List.flatten_cons, ← List.append_assoc]
      exact h'

/-- **The digest is that of the concatenation**, whatever was in the memory of the object. -/
theorem ofBlocks_eq (c : SHA1Context) {blocks : List Bytes}
    (hblocks : ∀ b ∈ blocks, b.length < 2 ^ 32) (hmax : blocks.flatten.length < 2 ^ 61) :
    Hash.ofBlocks c blocks = .ok (Sha1.sha1 blocks.flatten) := by
  have hnew : Absorbed (Hash.new c) [] := absorbed_reset c
  obtain ⟨c', hwrite, h'⟩ := hnew.blocks hblocks (by rw [List.length_nil]; omega)
  rw [Hash.ofBlocks, hwrite]
  exact h'.value

/-! ### A mapped file -/

/-- The calls that succeed tell the truth about a file with this content. -/
structure Mapping.Shows (map : Mapping) (content : Bytes) : Prop where
  fstat : ∀ n, map.fstat = .ok n → n = content.length
  mmap : ∀ size n w, map.mmap size n = .ok w → w = (content.drop n).take size

/-- No call fails; `mmap` need not succeed where it is not asked to. -/
structure Mapping.NoFault (map : Mapping) (content : Bytes) : Prop where
  open_ : map.open_ = .ok ⟨⟩
  fstat : ∃ n, map.fstat = .ok n
  mmap : ∀ size n, 0 < size → size ≤ MAXMAP → MAXMAP ∣ n → n + size ≤ content.length →
    ∃ w, map.mmap size n = .ok w
  munmap : ∀ size n, map.munmap size n = .ok ⟨⟩
  close : map.close = .ok ⟨⟩

/-- The window from `n` on. -/
def windowSize (content : Bytes) (n : Nat) : Nat :=
  if content.length - n > MAXMAP then MAXMAP else content.length - n

/-- A window is not empty and ends in the file, and only the last one is of another size. -/
theorem windowSize_spec {content : Bytes} {n : Nat} (h : n < content.length) :
    0 < windowSize content n ∧ windowSize content n ≤ MAXMAP ∧
      n + windowSize content n ≤ content.length ∧
      (MAXMAP ∣ n → n + windowSize content n < content.length → MAXMAP ∣ n + windowSize content n) := by
  have hpos : 0 < MAXMAP := by decide
  rw [windowSize]
  split
  · exact ⟨hpos, le_refl _, by omega, fun hdvd _ => (Nat.dvd_add_right hdvd).mpr dvd_rfl⟩
  · exact ⟨by omega, by omega, by omega, fun _ hlt => by omega⟩

theorem hashWindows_lt (map : Mapping) {content : Bytes} {n : Nat} (h : n < content.length)
    (c : SHA1Context) :
    hashWindows map content.length n c =
      (map.mmap (windowSize content n) n >>= fun w => Hash.write c w (windowSize content n) >>= fun ho =>
        map.munmap (windowSize content n) n >>= fun _ =>
          hashWindows map content.length (n + windowSize content n) ho) := by
  rw [hashWindows, if_pos h]
  rfl

/-- **The windows cover the rest of the file**, each byte once. -/
theorem hashWindows_eq {map : Mapping} {content : Bytes} (hmap : map.Shows content)
    (hmax : content.length < 2 ^ 61) {n : Nat} (hn : n ≤ content.length)
    (h : Absorbed c (content.take n)) :
    (∀ c', hashWindows map content.length n c = .ok c' → Absorbed c' content) ∧
      (map.NoFault content → (n < content.length → MAXMAP ∣ n) →
        ∃ c', hashWindows map content.length n c = .ok c') := by
  -- induction on what is still to be hashed; what has been is a prefix that is absorbed
  induction hk : content.length - n using Nat.strongRecOn generalizing n c with
  | ind k ih =>
    by_cases hlt : n < content.length
    · obtain ⟨hpos, hle, hend, hnext⟩ := windowSize_spec hlt
      have hstep := hashWindows_lt map hlt c
      cases hw : map.mmap (windowSize content n) n with
      | error e =>
        have hrun : hashWindows map content.length n c = .error e := by
          rw [hstep, hw]
          rfl
        rw [hrun]
        constructor
        · intro c' hc'
          cases hc'
        · intro hno hdvd
          obtain ⟨w, hok⟩ := hno.mmap _ n hpos hle (hdvd hlt) hend
          rw [hw] at hok
          cases hok
      | ok w =>
        -- the window is the next piece of the content, and short enough for `Hash::write`
        have hwindow := hmap.mmap _ n w hw
        have hlen : w.length = windowSize content n := by
          rw [hwindow, List.length_take, List.length_drop]
          omega
        have hsmall : MAXMAP < 2 ^ 32 := by decide
        have htake : content.take n ++ w = content.take (n + windowSize content n) := by
          rw [hwindow, List.take_add]
        have htaken : (content.take n).length ≤ n := List.length_take_le n content
        obtain ⟨c₁, hwrite, h₁⟩ := h.write (l := w) (by omega) (by omega)
        rw [hlen] at hwrite
        rw [htake] at h₁
        have hrest := ih (content.length - (n + windowSize content n)) (by omega) hend h₁ rfl
        -- what is left to do once the window has been hashed
        have hwritten : hashWindows map content.length n c = (map.munmap (windowSize content n) n >>=
            fun _ => hashWindows map content.length (n + windowSize content n) c₁) := by
          rw [hstep, hw]
          show (Hash.write c w (windowSize content n) >>= _) = _
          rw [hwrite]
          rfl
        cases hu : map.munmap (windowSize content n) n with
        | error e =>
          have hrun : hashWindows map content.length n c = .error e := by
            rw [hwritten, hu]
            rfl
          rw [hrun]
          constructor
          · intro c' hc'
            cases hc'
          · intro hno _
            rw [hno.munmap] at hu
            cases hu
        | ok _ =>
          have hrun : hashWindows map content.length n c =
              hashWindows map content.length (n + windowSize content n) c₁ := by
            rw [hwritten, hu]
            rfl
          rw [hrun]
          exact ⟨hrest.1, fun hno hdvd => hrest.2 hno fun hmore => hnext (hdvd hlt) hmore⟩
    -- the loop has come to the end
    · have hall : content.take n = content := List.take_of_length_le (by omega)
      have hrun : hashWindows map content.length n c = .ok c := by
        rw [hashWindows, if_neg hlt]
      rw [hall] at h
      rw [hrun]
      constructor
      · intro c' hc'
        rw [← Except.ok.inj hc']
        exact h
      · exact fun _ _ => ⟨c, rfl⟩

/-- **The path of a mapped file.** -/
theorem hashMapped_eq {map : Mapping} {content : Bytes} (hmap : map.Shows content)
    (hmax : content.length < 2 ^ 61) (c : SHA1Context) :
    (∀ c', hashMapped map (Hash.new c) = .ok c' → Absorbed c' content) ∧
      (map.NoFault content → ∃ c', hashMapped map (Hash.new c) = .ok c') := by
  have hnew : Absorbed (Hash.new c) (content.take 0) := absorbed_reset c
  obtain ⟨hall, hsome⟩ := hashWindows_eq hmap hmax (Nat.zero_le _) hnew
  constructor
  · intro c' hc'
    rw [hashMapped] at hc'
    -- every call has succeeded if the result is a value
    cases hopen : map.open_ with
    | error e =>
      rw [hopen] at hc'
      cases hc'
    | ok _ =>
    cases hstat : map.fstat with
    | error e =>
      rw [hopen, hstat] at hc'
      cases hc'
    | ok st_size =>
    rw [hopen, hstat, hmap.fstat st_size hstat] at hc'
    cases hrun : hashWindows map content.length 0 (Hash.new c) with
    | error e =>
      change (hashWindows map content.length 0 (Hash.new c) >>= _) = _ at hc'
      rw [hrun] at hc'
      cases hc'
    | ok c₁ =>
    change (hashWindows map content.length 0 (Hash.new c) >>= _) = _ at hc'
    rw [hrun] at hc'
    cases hclose : map.close with
    | error e =>
      rw [hclose] at hc'
      cases hc'
    | ok _ =>
      rw [hclose] at hc'
      rw [← Except.ok.inj hc']
      exact hall c₁ hrun
  · intro hno
    obtain ⟨st_size, hstat⟩ := hno.fstat
    obtain ⟨c', hrun⟩ := hsome hno fun _ => dvd_zero _
    refine ⟨c', ?_⟩
    rw [hashMapped, hno.open_, hstat, hmap.fstat st_size hstat, hno.close]
    show (hashWindows map content.length 0 (Hash.new c) >>= _) = _
    rw [hrun]
    rfl

/-! ### A file that is read -/

/-- **The path of a file that is read**, in whatever blocks. -/
theorem wp_hashBlocks {content done r : Bytes} {f : File Source} {fuel turns : Nat}
    (hfuel : content.length < fuel) (hturns : r.length < turns) (hmax : content.length < 2 ^ 61)
    (hleft : File.Left f r) (hdone : done ++ r = content) (h : Absorbed c done) :
    wp (hashBlocks Source.virtual fuel turns c) (fun c' _ => Absorbed c' content) (fun _ _ => False) f := by
  induction turns generalizing c f done r with
  | zero => omega
  | succ turns ih =>
    have hlen : content.length = done.length + r.length := by rw [← hdone, List.length_append]
    rw [hashBlocks, wp_bind]
    have hread : wp (File.getbytes Source.virtual fuel 4096 false) (fun bytes f' =>
        ∃ r', File.Left f' r' ∧ File.Piece 4096 false r bytes r') (fun _ _ => False) f :=
      hleft.wp_getbytes (by omega) (by decide)
    apply wp_mono hread
    · rintro buffer f' ⟨r', hleft', hpiece⟩
      have hsplit := congrArg List.length hpiece.split
      rw [List.length_append] at hsplit
      have hle := hpiece.le
      rw [wp_ite]
      split
      · -- the end of the file
        rename_i hzero
        rw [hpiece.nonempty (List.length_eq_zero_iff.mp hzero), List.append_nil] at hdone
        rw [← hdone]
        exact h
      · obtain ⟨c₁, hwrite, h₁⟩ := h.write (l := buffer) (by omega) (by omega)
        rw [hwrite]
        apply ih (by omega) hleft' _ h₁
        rw [List.append_assoc, hpiece.split, hdone]
    · exact fun _ _ hfalse => hfalse

/-! ### `hashfile` -/

section Hashfile

variable {content : Bytes} (hmax : content.length < 2 ^ 61) (c : SHA1Context)
include hmax

/-- The mapped file: nothing but the digest is returned, and it is if no call fails. -/
theorem hashfile_mapped {map : Mapping} (hmap : map.Shows content) {δ : Type} (v : Virtual δ)
    (opened : Except Exn (File δ)) (fuel : Nat) :
    (∀ h, hashfile true true map v opened fuel c = .ok h → h = Sha1.sha1 content) ∧
      (map.NoFault content → hashfile true true map v opened fuel c = .ok (Sha1.sha1 content)) := by
  obtain ⟨hall, hsome⟩ := hashMapped_eq hmap hmax c
  have hpath : hashfile true true map v opened fuel c =
      (orStop (hashMapped map (Hash.new c)) >>= fun ho => orStop (Hash.value ho)) := rfl
  have hdigest : ∀ c', hashMapped map (Hash.new c) = .ok c' →
      hashfile true true map v opened fuel c = .ok (Sha1.sha1 content) := by
    intro c' hrun
    rw [hpath, hrun]
    show orStop (Hash.value c') = _
    rw [(hall c' hrun).value]
    rfl
  constructor
  · intro h hh
    cases hrun : hashMapped map (Hash.new c) with
    | error e =>
      rw [hpath, hrun] at hh
      cases hh
    | ok c' =>
      rw [hdigest c' hrun] at hh
      exact (Except.ok.inj hh).symm
  · intro hno
    obtain ⟨c', hrun⟩ := hsome hno
    exact hdigest c' hrun

/-- The file that is read. -/
theorem hashfile_read {fs_is_local mmap_hint : Bool} (hpath : (fs_is_local && mmap_hint) = false)
    (map : Mapping) (sizes : Nat → Nat) {fuel : Nat} (hfuel : content.length < fuel) :
    hashfile fs_is_local mmap_hint map Source.virtual (.ok { dev := ⟨content, sizes⟩ }) fuel c =
      .ok (Sha1.sha1 content) := by
  have hnew : Absorbed (Hash.new c) [] := absorbed_reset c
  obtain ⟨c', f', hrun, h'⟩ := wp_returns (wp_hashBlocks hfuel hfuel hmax (File.Left.opened content sizes)
    (List.nil_append content) hnew)
  rw [hashfile, hpath, if_neg Bool.false_ne_true]
  show afterReading (hashBlocks Source.virtual fuel fuel (Hash.new c) { dev := ⟨content, sizes⟩ }) = _
  rw [hrun]
  show orStop (Hash.value c') = _
  rw [h'.value]
  rfl

/-- **The two paths of `hashfile` agree**: for a content of fewer than 2^61 bytes they return its SHA-1
digest, the one if none of its calls fails, the other whatever the sizes of the reads are.  That is also
what a `Hash` returns for any blocks with this concatenation, and for the content in one piece. -/
theorem hashfile_agrees :
    (∀ map : Mapping, map.Shows content → ∀ (f : File Source) (fuel : Nat),
      (∀ h, hashfile true true map Source.virtual (.ok f) fuel c = .ok h → h = Sha1.sha1 content) ∧
      (map.NoFault content →
        hashfile true true map Source.virtual (.ok f) fuel c = .ok (Sha1.sha1 content))) ∧
    (∀ fs_is_local mmap_hint, (fs_is_local && mmap_hint) = false →
      ∀ (map : Mapping) (sizes : Nat → Nat) (fuel : Nat), content.length < fuel →
        hashfile fs_is_local mmap_hint map Source.virtual (.ok { dev := ⟨content, sizes⟩ }) fuel c =
          .ok (Sha1.sha1 content)) ∧
    (∀ blocks : List Bytes, (∀ b ∈ blocks, b.length < 2 ^ 32) → blocks.flatten = content →
      Hash.ofBlocks c blocks = .ok (Sha1.sha1 content)) ∧
    Hash.value (inputLoop content (Hash.new c)) = .ok (Sha1.sha1 content) := by
  have hnew : Absorbed (Hash.new c) [] := absorbed_reset c
  refine ⟨?_, ?_, ?_, ?_⟩
  · intro map hmap f fuel
    exact hashfile_mapped hmax c hmap Source.virtual (.ok f) fuel
  · intro fs_is_local mmap_hint hpath map sizes fuel hfuel
    exact hashfile_read hmax c hpath map sizes hfuel
  · intro blocks hblocks hcut
    rw [← hcut] at hmax ⊢
    exact ofBlocks_eq c hblocks hmax
  · exact (hnew.loop content (by rw [List.length_nil]; omega)).value

end Hashfile

/-- Memory that has not been used. -/
def blankContext : SHA1Context := ⟨Vector.replicate 5 0, 0, 0, 0, Vector.replicate 64 0, 0, 0⟩

/-- The first test of the standard, in two blocks. -/
theorem digest_of_abc : Hash.ofBlocks blankContext [lit "a", lit "bc"] =
    .ok [0xA9, 0x99, 0x3E, 0x36, 0x47, 0x06, 0x81, 0x6A, 0xBA, 0x3E, 0x25, 0x71, 0x78, 0x50, 0xC2, 0x6C,
      0x9C, 0xD0, 0xD8, 0x9D] := by
  have hmax : (lit "abc").length < 2 ^ 61 := by decide
  have hblocks := (hashfile_agrees hmax blankContext).2.2.1 [lit "a", lit "bc"] (by decide) rfl
  have hdigest : Sha1.sha1 (lit "abc") = [0xA9, 0x99, 0x3E, 0x36, 0x47, 0x06, 0x81, 0x6A, 0xBA, 0x3E,
      0x25, 0x71, 0x78, 0x50, 0xC2, 0x6C, 0x9C, 0xD0, 0xD8, 0x9D] := by decide +kernel
  rw [hblocks, hdigest]

end Hbackup
