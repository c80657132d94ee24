import Hbackup.Equiv.Repository
import Hbackup.Equiv.Shared

/-!
# What backups at the same time leave behind

An object may be emptied or replaced while somebody else copies the same contents.  Still, it is right
as soon as all who have opened it have closed it, and none of them has been stopped before
(`Sound.progress`); and if no two processes copy the same contents, it is right at any time
(`Sound.apart`).  Every call keeps this, as long as the process that makes it does what `addHashable`
does (`safe_addHashable`), so it holds in every state that the processes reach together
(`copied_together`).
-/

namespace Hbackup.Shared

open Concurrent FormCoding ProgramLogic

variable {ι : Type} {repo : Bytes} {sha1 : Bytes → Hash} {content : Hash → Bytes}
  {J : ι → Hash → Prop} {d d' : Disk ι} {i j : ι} {h : Hash} {x : Nat}

/-! ### Writing into one file -/

/-- `data` is right up to `q`, and not too long. -/
structure Upto (content data : Bytes) (q : Nat) : Prop where
  length_le : data.length ≤ content.length
  right : ∀ k < q, data[k]? = content[k]?

section Upto

variable {content data wrote block : Bytes} {q : Nat}

theorem Upto.self (content : Bytes) (q : Nat) : Upto content content q := ⟨le_refl _, fun _ _ => rfl⟩

theorem Upto.nil (content : Bytes) : Upto content [] 0 :=
  ⟨Nat.zero_le _, fun _ hk => absurd hk (Nat.not_lt_zero _)⟩

theorem Upto.eq (h : Upto content data content.length) : data = content := by
  apply List.ext_getElem?
  intro k
  by_cases hk : k < content.length
  · exact h.right k hk
  · have hle := h.length_le
    rw [List.getElem?_eq_none (by omega), List.getElem?_eq_none (by omega)]

theorem getElem?_patch {pos k : Nat} (hblock : block ≠ []) :
    (patch data pos block)[k]? = if k < pos then some (data[k]?.getD 0)
      else if k < pos + block.length then block[k - pos]? else data[k]? := by
  have hlen : (data.take pos ++ List.replicate (pos - data.length) (0 : UInt8)).length = pos := by
    simp only [List.length_append, List.length_take, List.length_replicate]
    omega
  rw [patch, if_neg hblock]
  split
  next hk =>
    rw [List.append_assoc, List.getElem?_append_left (by omega)]
    by_cases hdata : k < data.length
    · rw [List.getElem?_append_left (by rw [List.length_take]; omega), List.getElem?_take_of_lt hk,
        List.getElem?_eq_getElem hdata]
      rfl
    · rw [List.getElem?_append_right (by rw [List.length_take]; omega), List.getElem?_replicate_of_lt
        (by rw [List.length_take]; omega), List.getElem?_eq_none (by omega)]
      rfl
  next hk =>
    split
    next hk' =>
      rw [List.getElem?_append_left (by rw [List.length_append, hlen]; omega),
        List.getElem?_append_right (by omega), hlen]
    next hk' =>
      rw [List.getElem?_append_right (by rw [List.length_append, hlen]; omega), List.getElem?_drop,
        List.length_append, hlen]
      congr 1
      omega

/-- A block in its place is right, and what was right stays so. -/
theorem Upto.patch_of (h : Upto content data q) (hwrote : wrote ++ block <+: content) {n : Nat}
    (hn : n ≤ content.length) (hnew : ∀ k < n, q ≤ k → wrote.length ≤ k ∧ k < (wrote ++ block).length) :
    Upto content (patch data wrote.length block) n := by
  have hlen := hwrote.length_le
  rw [List.length_append] at hlen
  simp only [List.length_append] at hnew
  refine ⟨?_, fun k hk => ?_⟩
  · have hle := h.length_le
    unfold patch
    split
    · exact hle
    · simp only [List.length_append, List.length_take, List.length_replicate, List.length_drop]
      omega
  by_cases hblock : block = []
  · rw [patch, if_pos hblock]
    rw [hblock, List.length_nil] at hnew
    exact h.right k (by have := hnew k hk; omega)
  rw [getElem?_patch hblock]
  by_cases hpos : k < wrote.length
  · rw [if_pos hpos, h.right k (by have := hnew k hk; omega), List.getElem?_eq_getElem (by omega)]
    rfl
  rw [if_neg hpos]
  split
  · obtain ⟨rest, rfl⟩ := hwrote
    rw [List.append_assoc, List.getElem?_append_right (by omega),
      List.getElem?_append_left (by omega)]
  · exact h.right k (by have := hnew k hk; omega)

/-- Somebody writes what is right. -/
theorem Upto.patch (h : Upto content data q) (hwrote : wrote ++ block <+: content)
    (hq : q ≤ content.length) : Upto content (patch data wrote.length block) q :=
  h.patch_of hwrote hq fun _ hk hk' => absurd hk (Nat.not_lt.mpr hk')

/-- The one who has written all that is right goes on. -/
theorem Upto.patch_next (h : Upto content data wrote.length) (hwrote : wrote ++ block <+: content) :
    Upto content (Shared.patch data wrote.length block) (wrote ++ block).length :=
  h.patch_of hwrote hwrote.length_le fun _ hk hk' => ⟨hk', hk⟩

end Upto

/-! ### The invariant -/

/-- No process has the file open, or was stopped when it had. -/
def Disk.Settled (d : Disk ι) (x : Nat) : Prop :=
  (d.inodes x).cut = false ∧ ∀ j hd, d.handles j = some hd → hd.ino ≠ x

/-- A file that is to have these contents, as long as all who have it open write them, and nobody has
been stopped: it is right up to where those are that have opened it last, and all right if they have
closed it. -/
def Progressing (sha1 : Bytes → Hash) (content : Bytes) (h : Hash) (d : Disk ι) (x : Nat) : Prop :=
  (d.inodes x).cut = false →
    (∀ j hd, d.handles j = some hd → hd.ino = x → hd.wrote <+: content) →
    (∀ j hd, d.handles j = some hd → hd.ino = x → hd.fresh = true →
      Upto content (d.inodes x).data hd.wrote.length) ∧
    ((∀ j hd, d.handles j = some hd → hd.ino = x → hd.fresh = false) →
      (d.inodes x).data = content ∧ sha1 content = h)

/-- Nobody but `i` copies the contents with the hash `h`. -/
def Alone (J : ι → Hash → Prop) (i : ι) (h : Hash) : Prop := ∀ j, J j h → j = i

/-- The invariant, for processes that copy the contents with the hashes `J`. -/
structure Sound (repo : Bytes) (sha1 : Bytes → Hash) (content : Hash → Bytes) (J : ι → Hash → Prop)
    (d : Disk ι) : Prop where
  named : ∀ p x, d.names p = some (.file x) → x < d.next
  unlinked : ∀ p q x, d.names p = some (.file x) → d.names q = some (.file x) → p = q
  objects : ∀ h e, d.names (objectPath repo h) = some e → ∃ x, e = .file x
  handles : ∀ j hd, d.handles j = some hd → hd.ino < d.next ∧ ∃ h, J j h ∧ hd.path = tmpPath repo h
  paths : ∀ j hd h p, d.handles j = some hd → hd.path = tmpPath repo h →
    d.names p = some (.file hd.ino) → p = tmpPath repo h ∨ p = objectPath repo h
  progress : ∀ h x p, p = tmpPath repo h ∨ p = objectPath repo h → d.names p = some (.file x) →
    Progressing sha1 (content h) h d x
  apart : ∀ h x, (∀ i, J i h → Alone J i h) → d.names (objectPath repo h) = some (.file x) →
    d.Settled x

/-- What process `i` relies on. -/
structure Rely (repo : Bytes) (J : ι → Hash → Prop) (i : ι) (d d' : Disk ι) : Prop where
  handle : SameHandle (d.handles i) (d'.handles i)
  objects : ∀ h, (d.names (objectPath repo h)).isSome → (d'.names (objectPath repo h)).isSome
  mine : ∀ h, J i h → Alone J i h → d'.names (tmpPath repo h) = d.names (tmpPath repo h) ∧
    ∀ x, d.names (tmpPath repo h) = some (.file x) → (d'.inodes x).cut = (d.inodes x).cut

/-- What process `i` guarantees, so that the others can rely on what they rely on. -/
structure Guar (repo : Bytes) (J : ι → Hash → Prop) (i : ι) (d d' : Disk ι) : Prop where
  objects : ∀ h, (d.names (objectPath repo h)).isSome → (d'.names (objectPath repo h)).isSome
  handles : ∀ j, j ≠ i → SameHandle (d.handles j) (d'.handles j)
  others : ∀ j, j ≠ i → ∀ h, J j h → Alone J j h →
    d'.names (tmpPath repo h) = d.names (tmpPath repo h) ∧
      ∀ x, d.names (tmpPath repo h) = some (.file x) → (d'.inodes x).cut = (d.inodes x).cut

theorem Guar.rely (hg : Guar repo J i d d') (hj : j ≠ i) : Rely repo J j d d' :=
  ⟨hg.handles j hj, hg.objects, hg.others j hj⟩

theorem tmpPath_injective {h h' : Hash} (he : tmpPath repo h = tmpPath repo h') : h = h' :=
  objectPath_injective (List.append_cancel_right he)

instance : Std.Refl (Rely repo J i) :=
  ⟨fun _ => ⟨.refl _, fun _ h => h, fun _ _ _ => ⟨rfl, fun _ _ => rfl⟩⟩⟩

instance : IsTrans (Disk ι) (Rely repo J i) := by
  refine ⟨fun d₁ d₂ d₃ h₁ h₂ => ⟨?_, fun h hs => h₂.objects h (h₁.objects h hs), ?_⟩⟩
  · rcases h₁.handle with he₁ | ⟨hd₁, hs₁, he₁⟩
    · rcases h₂.handle with he₂ | ⟨hd₂, hs₂, he₂⟩
      · exact .inl (he₂.trans he₁)
      · exact .inr ⟨hd₂, he₁ ▸ hs₂, he₂⟩
    · rcases h₂.handle with he₂ | ⟨hd₂, hs₂, he₂⟩
      · exact .inr ⟨hd₁, hs₁, he₂.trans he₁⟩
      · rw [he₁] at hs₂
        obtain rfl := Option.some.inj hs₂
        exact .inr ⟨hd₁, hs₁, he₂⟩
  · intro h hj ha
    obtain ⟨hn₁, hc₁⟩ := h₁.mine h hj ha
    obtain ⟨hn₂, hc₂⟩ := h₂.mine h hj ha
    exact ⟨hn₂.trans hn₁, fun x hx => (hc₂ x (hn₁.trans hx)).trans (hc₁ x hx)⟩

/-- The file of a descriptor is at no other temporary path. -/
theorem Sound.hash_eq (hs : Sound repo sha1 content J d) {hd : Handle} {h' : Hash} {p : Bytes}
    (hhd : d.handles j = some hd) (hpath : hd.path = tmpPath repo h)
    (hp : p = tmpPath repo h' ∨ p = objectPath repo h') (hname : d.names p = some (.file hd.ino)) :
    h' = h := by
  rcases hs.paths j hd h p hhd hpath hname with rfl | rfl
  · rcases hp with hp | hp
    · exact (tmpPath_injective hp).symm
    · exact absurd hp (tmp_ne_objectPath repo h h')
  · rcases hp with hp | hp
    · exact absurd hp.symm (tmp_ne_objectPath repo h' h)
    · exact (objectPath_injective hp).symm

/-- The same file, open for the same. -/
theorem Progressing.congr {content : Bytes} {h : Hash} (hp : Progressing sha1 content h d x)
    (hinode : d'.inodes x = d.inodes x)
    (hhandles : ∀ j hd, hd.ino = x → (d'.handles j = some hd ↔ d.handles j = some hd)) :
    Progressing sha1 content h d' x := by
  intro hcut hstraight
  rw [hinode] at hcut ⊢
  obtain ⟨hupto, hall⟩ := hp hcut fun j hd hhd hx => hstraight j hd ((hhandles j hd hx).mpr hhd) hx
  refine ⟨fun j hd hhd hx => hupto j hd ((hhandles j hd hx).mp hhd) hx, fun hf => hall ?_⟩
  exact fun j hd hhd hx => hf j hd ((hhandles j hd hx).mpr hhd) hx

/-! ### The calls keep the invariant -/

theorem Closed.handles_iff (hc : Closed i d d') {hd : Handle} :
    d'.handles j = some hd ↔ j ≠ i ∧ d.handles j = some hd := by
  by_cases hji : j = i
  · rw [hji, hc.handle]
    simp
  · rw [hc.handles j hji]
    simp [hji]

/-- A file that `i` does not have open is not affected when it closes its own. -/
theorem Closed.handles_iff_of_ne (hc : Closed i d d') {hd : Handle}
    (hne : ∀ hd₀, d.handles i = some hd₀ → hd.ino ≠ hd₀.ino) :
    d'.handles j = some hd ↔ d.handles j = some hd := by
  rw [hc.handles_iff, and_iff_right_iff_imp]
  rintro hj rfl
  exact hne hd hj rfl

/-- What closing needs: the file of the descriptor goes on as it should. -/
theorem Sound.closed (hs : Sound repo sha1 content J d) (hc : Closed i d d')
    (hinodes : ∀ x, (∀ hd, d.handles i = some hd → x ≠ hd.ino) → d'.inodes x = d.inodes x)
    (hown : ∀ hd h p, d.handles i = some hd → p = tmpPath repo h ∨ p = objectPath repo h →
      d.names p = some (.file hd.ino) → Progressing sha1 (content h) h d' hd.ino) :
    Sound repo sha1 content J d' ∧ Guar repo J i d d' := by
  constructor
  · refine ⟨hc.names ▸ hc.next ▸ hs.named, hc.names ▸ hs.unlinked, hc.names ▸ hs.objects,
      fun j hd hj => hc.next ▸ hs.handles j hd (hc.handles_iff.mp hj).2,
      fun j hd h p hj => hc.names ▸ hs.paths j hd h p (hc.handles_iff.mp hj).2, ?_, ?_⟩
    · intro h x p hp hname
      rw [hc.names] at hname
      by_cases hx : ∃ hd, d.handles i = some hd ∧ x = hd.ino
      · obtain ⟨hd, hhd, rfl⟩ := hx
        exact hown hd h p hhd hp hname
      · have hne : ∀ hd, d.handles i = some hd → x ≠ hd.ino := fun hd hhd hx' => hx ⟨hd, hhd, hx'⟩
        refine (hs.progress h x p hp hname).congr (hinodes x hne) fun j hd hx' => ?_
        exact hc.handles_iff_of_ne fun hd₀ hhd₀ => hx' ▸ hne hd₀ hhd₀
    · intro h x ha hname
      rw [hc.names] at hname
      obtain ⟨hcut, hopen⟩ := hs.apart h x ha hname
      refine ⟨?_, fun j hd hj => hopen j hd (hc.handles_iff.mp hj).2⟩
      rw [hinodes x fun hd hhd => (hopen i hd hhd).symm]
      exact hcut
  · refine ⟨fun h hh => hc.names ▸ hh, fun j hji => .inl (hc.handles j hji), fun j hji h hj ha =>
      ⟨by rw [hc.names], fun x hx => ?_⟩⟩
    rw [hinodes x ?_]
    rintro hd hhd rfl
    -- nobody else has it open
    obtain ⟨-, h₀, hJ, hpath⟩ := hs.handles i hd hhd
    exact hji (ha i (hs.hash_eq hhd hpath (.inl rfl) hx ▸ hJ)).symm

/-- **A block is written**, whatever it is. -/
theorem Sound.wrote (hs : Sound repo sha1 content J d) {hd : Handle} {block : Bytes}
    (hw : Wrote i hd block d d') : Sound repo sha1 content J d' ∧ Guar repo J i d d' := by
  obtain ⟨hlt, h₀, hJ, hpath⟩ := hs.handles i hd hw.was
  -- the descriptors are those from before, but that `i` has gone on
  have hwas : ∀ {j hd'}, d'.handles j = some hd' →
      j ≠ i ∧ d.handles j = some hd' ∨ j = i ∧ hd' = { hd with wrote := hd.wrote ++ block } := by
    intro j hd' hj
    by_cases hji : j = i
    · exact .inr ⟨hji, Option.some.inj (hj.symm.trans (hji ▸ hw.handle))⟩
    · exact .inl ⟨hji, hw.handles j hji ▸ hj⟩
  have hcuts : ∀ x, (d'.inodes x).cut = (d.inodes x).cut := by
    intro x
    by_cases hx : x = hd.ino
    · rw [hx, hw.inode]
    · rw [hw.inodes x hx]
  constructor
  · refine ⟨hw.names ▸ hw.next ▸ hs.named, hw.names ▸ hs.unlinked, hw.names ▸ hs.objects,
      fun j hd' hj => ?_, fun j hd' h p hj hpath' hname => ?_, ?_, ?_⟩
    · rw [hw.next]
      rcases hwas hj with ⟨-, hj⟩ | ⟨rfl, rfl⟩
      · exact hs.handles j hd' hj
      · exact ⟨hlt, h₀, hJ, hpath⟩
    · rw [hw.names] at hname
      rcases hwas hj with ⟨-, hj⟩ | ⟨rfl, rfl⟩
      · exact hs.paths j hd' h p hj hpath' hname
      · exact hs.paths j hd h p hw.was hpath' hname
    · intro h' x p hp hname
      rw [hw.names] at hname
      by_cases hx : x = hd.ino
      swap
      · refine (hs.progress h' x p hp hname).congr (hw.inodes x hx) fun j hd' hx' => ?_
        constructor
        · intro hj
          rcases hwas hj with ⟨-, hj⟩ | ⟨rfl, rfl⟩
          · exact hj
          · exact absurd hx'.symm hx
        · intro hj
          rw [hw.handles j, hj]
          rintro rfl
          exact hx (hx' ▸ congrArg Handle.ino (Option.some.inj (hj.symm.trans hw.was)))
      subst hx
      intro hcut hstraight
      rw [hcuts] at hcut
      have hgoes : hd.wrote ++ block <+: content h' := hstraight i _ hw.handle rfl
      obtain ⟨hupto, hall⟩ := hs.progress h' _ p hp hname hcut fun j hd' hj hx' => by
        by_cases hji : j = i
        · obtain rfl : hd = hd' := Option.some.inj (hw.was.symm.trans (hji ▸ hj))
          exact (List.prefix_append _ _).trans hgoes
        · exact hstraight j hd' (hw.handles j hji ▸ hj) hx'
      rw [hw.inode]
      refine ⟨fun j hd' hj hx' hfresh => ?_, fun hf => ?_⟩
      · rcases hwas hj with ⟨hji, hj₀⟩ | ⟨rfl, rfl⟩
        · exact (hupto j hd' hj₀ hx' hfresh).patch hgoes (hstraight j hd' hj hx').length_le
        · exact (hupto j hd hw.was rfl hfresh).patch_next hgoes
      · obtain ⟨hdata, hsha1⟩ := hall fun j hd' hj hx' => by
          by_cases hji : j = i
          · obtain rfl : hd = hd' := Option.some.inj (hw.was.symm.trans (hji ▸ hj))
            have hmine := hf i _ hw.handle
            exact hmine rfl
          · exact hf j hd' (hw.handles j hji ▸ hj) hx'
        refine ⟨?_, hsha1⟩
        change patch (d.inodes hd.ino).data hd.wrote.length block = content h'
        rw [hdata]
        exact ((Upto.self _ _).patch hgoes (le_refl _)).eq
    · intro h' x ha hname
      rw [hw.names] at hname
      obtain ⟨hcut, hopen⟩ := hs.apart h' x ha hname
      refine ⟨(hcuts x).trans hcut, fun j hd' hj => ?_⟩
      rcases hwas hj with ⟨-, hj⟩ | ⟨rfl, rfl⟩
      · exact hopen j hd' hj
      · exact hopen j hd hw.was
  · exact ⟨fun h hh => hw.names ▸ hh, fun j hji => .inl (hw.handles j hji),
      fun _ _ _ _ _ => ⟨by rw [hw.names], fun x _ => hcuts x⟩⟩

/-- No other path has the file that is opened. -/
theorem OpenedAt.only {path p : Bytes} (ho : OpenedAt i path x d d')
    (hs : Sound repo sha1 content J d) (hp : d'.names p = some (.file x)) : p = path := by
  by_contra hne
  rw [ho.names p hne] at hp
  rcases ho.was with ⟨hx, -⟩ | ⟨rfl, -⟩
  · exact hne (hs.unlinked _ _ _ hp hx)
  · exact absurd (hs.named _ _ hp) (Nat.lt_irrefl _)

/-- Other files have the names that they had. -/
theorem OpenedAt.names_of_ne {path p : Bytes} {y : Nat} (ho : OpenedAt i path x d d') (hy : y ≠ x)
    (hp : d'.names p = some (.file y)) : p ≠ path ∧ d.names p = some (.file y) := by
  have hne : p ≠ path := by
    rintro rfl
    rw [ho.name] at hp
    cases hp
    exact hy rfl
  exact ⟨hne, ho.names p hne ▸ hp⟩

/-- The descriptors are those from before, but for being fresh. -/
theorem OpenedAt.handles {path : Bytes} {hd : Handle} (ho : OpenedAt i path x d d')
    (hj : d'.handles j = some hd) : j = i ∧ hd = ⟨x, path, [], true⟩ ∨
      j ≠ i ∧ ∃ hd₀, d.handles j = some hd₀ ∧ hd.ino = hd₀.ino ∧ hd.path = hd₀.path := by
  by_cases hji : j = i
  · exact .inl ⟨hji, Option.some.inj (hj.symm.trans (hji ▸ ho.handle))⟩
  · rcases ho.same j hji with he | ⟨hd₀, hj₀, he⟩
    · exact .inr ⟨hji, hd, he ▸ hj, rfl, rfl⟩
    · obtain rfl := Option.some.inj (hj.symm.trans he)
      exact .inr ⟨hji, hd₀, hj₀, rfl, rfl⟩

/-- **A temporary file is opened**: it is empty, whoever else has it open. -/
theorem Sound.openedAt (hs : Sound repo sha1 content J d) (hJ : J i h) (hnone : d.handles i = none)
    (ho : OpenedAt i (tmpPath repo h) x d d') :
    Sound repo sha1 content J d' ∧ Guar repo J i d d' := by
  have hnext : d.next ≤ d'.next ∧ x < d'.next := by
    rcases ho.was with ⟨hx, hn⟩ | ⟨rfl, hn⟩
    · exact ⟨by rw [hn], by rw [hn]; exact hs.named _ _ hx⟩
    · omega
  have hold : ∀ {j hd}, d.handles j = some hd → hd.ino = x → d.names (tmpPath repo h) = some (.file x) := by
    rintro j hd hj rfl
    rcases ho.was with ⟨hx, -⟩ | ⟨hx, -⟩
    · exact hx
    · exact absurd (hs.handles j hd hj).1 (hx ▸ Nat.lt_irrefl _)
  have hobject : ∀ h', d'.names (objectPath repo h') = d.names (objectPath repo h') := fun h' =>
    ho.names _ (tmp_ne_objectPath repo h h').symm
  constructor
  · refine ⟨fun p y hp => ?_, fun p q y hp hq => ?_, fun h' e he => ?_, fun j hd hj => ?_,
      fun j hd h' p hj hpath hname => ?_, fun h' y p hp hname => ?_, fun h' y ha hname => ?_⟩
    · by_cases hy : y = x
      · exact hy ▸ hnext.2
      · exact (hs.named p y (ho.names_of_ne hy hp).2).trans_le hnext.1
    · by_cases hy : y = x
      · subst hy
        rw [ho.only hs hp, ho.only hs hq]
      · exact hs.unlinked p q y (ho.names_of_ne hy hp).2 (ho.names_of_ne hy hq).2
    · exact hs.objects h' e (hobject h' ▸ he)
    · rcases ho.handles hj with ⟨rfl, rfl⟩ | ⟨-, hd₀, hj₀, hino, hpath⟩
      · exact ⟨hnext.2, h, hJ, rfl⟩
      · obtain ⟨hlt, hpath₀⟩ := hs.handles j hd₀ hj₀
        rw [hino, hpath]
        exact ⟨hlt.trans_le hnext.1, hpath₀⟩
    · rcases ho.handles hj with ⟨rfl, rfl⟩ | ⟨-, hd₀, hj₀, hino, hpath₀⟩
      · exact .inl ((ho.only hs hname).trans hpath)
      · refine hs.paths j hd₀ h' p hj₀ (hpath₀.symm.trans hpath) ?_
        rw [hino] at hname
        by_cases hx : hd₀.ino = x
        · rw [hx] at hname
          rw [ho.only hs hname, hx]
          exact hold hj₀ hx
        · exact (ho.names_of_ne hx hname).2
    · by_cases hy : y = x
      · subst hy
        intro _ _
        refine ⟨fun j hd hj hino hfresh => ?_, fun hf => absurd (hf i _ ho.handle rfl) (by simp)⟩
        rcases ho.handles hj with ⟨rfl, rfl⟩ | ⟨hji, hd₀, hj₀, hino₀, -⟩
        · rw [ho.inode]
          exact .nil _
        · -- those that were open aren't fresh any more
          have hlt := (hs.handles j hd₀ hj₀).1
          rw [ho.emptied (by omega) j hji hd hj hino] at hfresh
          cases hfresh
      · obtain ⟨-, hname⟩ := ho.names_of_ne hy hname
        refine (hs.progress h' y p hp hname).congr (ho.inodes y hy) fun j hd hino => ?_
        by_cases hji : j = i
        · rw [hji, ho.handle, hnone]
          refine ⟨fun hj => absurd ?_ hy, fun hj => by cases hj⟩
          rw [← hino, ← Option.some.inj hj]
        · exact ho.others j hji hd (hino ▸ hy)
    · have hy : y ≠ x := by
        rintro rfl
        exact tmp_ne_objectPath repo h h' (ho.only hs hname).symm
      obtain ⟨hcut, hopen⟩ := hs.apart h' y ha (hobject h' ▸ hname)
      refine ⟨by rw [ho.inodes y hy]; exact hcut, fun j hd hj => ?_⟩
      rcases ho.handles hj with ⟨rfl, rfl⟩ | ⟨-, hd₀, hj₀, hino, -⟩
      · exact hy.symm
      · exact hino ▸ hopen j hd₀ hj₀
  · refine ⟨fun h' hh => by rwa [hobject h'], ho.same, fun j hji h' hj ha => ?_⟩
    have hne : tmpPath repo h' ≠ tmpPath repo h := fun he =>
      hji (ha i (tmpPath_injective he ▸ hJ)).symm
    refine ⟨ho.names _ hne, fun y hy => ?_⟩
    rw [ho.inodes y]
    rintro rfl
    rw [← ho.names _ hne] at hy
    exact hne (ho.only hs hy)

/-- **An object gets its name**: what is at the temporary path now, which need not be what this
process has written. -/
theorem Sound.moved (hs : Sound repo sha1 content J d) (hJ : J i h) (hnone : d.handles i = none)
    (hcut : Alone J i h → ∀ x, d.names (tmpPath repo h) = some (.file x) → (d.inodes x).cut = false)
    (hm : Moved (tmpPath repo h) (objectPath repo h) x d d') :
    Sound repo sha1 content J d' ∧ Guar repo J i d d' := by
  have hgone : d'.names (tmpPath repo h) = none := hm.gone (tmp_ne_objectPath repo h h)
  -- what has a name now had one, and the file `x` has the one of the object
  have hwas : ∀ {p y}, d'.names p = some (.file y) →
      p = objectPath repo h ∧ y = x ∨ p ≠ objectPath repo h ∧ d.names p = some (.file y) := by
    intro p y hp
    by_cases hobject : p = objectPath repo h
    · rw [hobject, hm.name] at hp
      cases hp
      exact .inl ⟨hobject, rfl⟩
    · have htmp : p ≠ tmpPath repo h := by
        rintro rfl
        rw [hgone] at hp
        cases hp
      exact .inr ⟨hobject, hm.names p htmp hobject ▸ hp⟩
  have hne : ∀ {p y}, d'.names p = some (.file y) → p ≠ objectPath repo h → y ≠ x := by
    rintro p _ hp hobject rfl
    obtain ⟨rfl, -⟩ | ⟨-, hp₀⟩ := hwas hp
    · exact hobject rfl
    · rw [hs.unlinked _ _ _ hp₀ hm.was, hgone] at hp
      cases hp
  constructor
  · refine ⟨fun p y hp => ?_, fun p q y hp hq => ?_, fun h' e he => ?_,
      hm.handles ▸ hm.next ▸ hs.handles, fun j hd h' p hj hpath hname => ?_,
      fun h' y p hp hname => ?_, fun h' y ha hname => ?_⟩
    · rw [hm.next]
      rcases hwas hp with ⟨-, rfl⟩ | ⟨-, hp⟩
      · exact hs.named _ _ hm.was
      · exact hs.named _ _ hp
    · by_cases hpo : p = objectPath repo h
      · by_contra hpq
        rw [hpo, hm.name] at hp
        cases hp
        exact hne hq (fun hqo => hpq (hpo.trans hqo.symm)) rfl
      · by_cases hqo : q = objectPath repo h
        · rw [hqo, hm.name] at hq
          cases hq
          exact absurd rfl (hne hp hpo)
        · exact hs.unlinked p q y ((hwas hp).resolve_left fun h => hpo h.1).2
            ((hwas hq).resolve_left fun h => hqo h.1).2
    · by_cases hh : h' = h
      · rw [hh, hm.name] at he
        exact ⟨x, (Option.some.inj he).symm⟩
      · rw [hm.names _ (tmp_ne_objectPath repo h h').symm fun he => hh (objectPath_injective he)] at he
        exact hs.objects h' e he
    · rw [hm.handles] at hj
      rcases hwas hname with ⟨rfl, hino⟩ | ⟨-, hname⟩
      · exact .inr (congrArg _ (hs.hash_eq hj hpath (.inl rfl) (hino ▸ hm.was)))
      · exact hs.paths j hd h' p hj hpath hname
    · refine Progressing.congr (d := d) ?_ (by rw [hm.inodes]) fun j hd _ => by rw [hm.handles]
      rcases hwas hname with ⟨rfl, rfl⟩ | ⟨-, hname⟩
      · rcases hp with hp | hp
        · exact absurd hp.symm (tmp_ne_objectPath repo h' h)
        · rw [← objectPath_injective hp]
          exact hs.progress h _ _ (.inl rfl) hm.was
      · exact hs.progress h' y p hp hname
    · have hcongr : d'.Settled y ↔ d.Settled y := by
        unfold Disk.Settled
        rw [hm.inodes, hm.handles]
      rw [hcongr]
      rcases hwas hname with ⟨hpath, rfl⟩ | ⟨-, hname⟩
      · obtain rfl := objectPath_injective hpath
        refine ⟨hcut (ha i hJ) _ hm.was, fun j hd hj hino => ?_⟩
        -- only `i` could have it open
        obtain ⟨-, h₀, hJ₀, hpath₀⟩ := hs.handles j hd hj
        have hh := hs.hash_eq hj hpath₀ (.inl rfl) (hino ▸ hm.was)
        rw [ha i hJ j (hh ▸ hJ₀), hnone] at hj
        cases hj
      · exact hs.apart h' y ha hname
  · refine ⟨fun h' hh => ?_, fun j _ => .inl (by rw [hm.handles]), fun j hji h' hj ha => ?_⟩
    · by_cases he : h' = h
      · rw [he, hm.name]
        rfl
      · rwa [hm.names _ (tmp_ne_objectPath repo h h').symm fun e => he (objectPath_injective e)]
    · have hh : h' ≠ h := by
        rintro rfl
        exact hji (ha i hJ).symm
      rw [hm.names _ (fun he => hh (tmpPath_injective he)) (tmp_ne_objectPath repo h' h), hm.inodes]
      exact ⟨rfl, fun _ _ => rfl⟩

/-- **A directory is made**, above the objects. -/
theorem Sound.madeDir (hs : Sound repo sha1 content J d) {path : Bytes}
    (hlen : path.length < repo.length + 52) (hm : MadeDir path d d') (i : ι) :
    Sound repo sha1 content J d' ∧ Guar repo J i d d' := by
  have hobject : ∀ h, d'.names (objectPath repo h) = d.names (objectPath repo h) := by
    refine fun h => hm.names _ ?_
    rintro rfl
    rw [objectPath_length] at hlen
    omega
  have htmp : ∀ h, d'.names (tmpPath repo h) = d.names (tmpPath repo h) := by
    refine fun h => hm.names _ ?_
    rintro rfl
    rw [tmpPath_length] at hlen
    omega
  have hwas : ∀ {p y}, d'.names p = some (.file y) → d.names p = some (.file y) := by
    intro p y hp
    rw [← hm.names p]
    · exact hp
    · rintro rfl
      rw [hm.name] at hp
      cases hp
  constructor
  · refine ⟨fun p y hp => hm.next ▸ hs.named p y (hwas hp),
      fun p q y hp hq => hs.unlinked p q y (hwas hp) (hwas hq),
      fun h e he => hs.objects h e (hobject h ▸ he), hm.handles ▸ hm.next ▸ hs.handles,
      fun j hd h p hj hpath hname => hs.paths j hd h p (hm.handles ▸ hj) hpath (hwas hname),
      fun h y p hp hname => ?_, fun h y ha hname => ?_⟩
    · exact (hs.progress h y p hp (hwas hname)).congr (by rw [hm.inodes]) fun j hd _ => by
        rw [hm.handles]
    · unfold Disk.Settled
      rw [hm.inodes, hm.handles]
      exact hs.apart h y ha (hwas hname)
  · refine ⟨fun h hh => by rwa [hobject h], fun j _ => .inl (by rw [hm.handles]), fun j _ h _ _ => ?_⟩
    rw [htmp h, hm.inodes]
    exact ⟨rfl, fun _ _ => rfl⟩

section calls

variable [DecidableEq ι]

/-- **A process is stopped**: what it has open is cut. -/
theorem Sound.die (hs : Sound repo sha1 content J d) (i : ι) :
    Sound repo sha1 content J (d.die i) ∧ Guar repo J i d (d.die i) := by
  refine hs.closed (closed_die i d) ?_ ?_
  · intro x hx
    unfold Disk.die
    split
    · rfl
    · exact Function.update_of_ne (hx _ ‹_›) _ _
  · intro hd h p hhd _ _ hcut
    simp [Disk.die, hhd] at hcut

/-- **A file is closed**, by a process that has written all of it. -/
theorem Sound.close (hs : Sound repo sha1 content J d) {hd : Handle} (hhd : d.handles i = some hd)
    (hpath : hd.path = tmpPath repo h) (hwrote : hd.wrote = content h) (hsha1 : sha1 (content h) = h) :
    Sound repo sha1 content J (d.close i) ∧ Guar repo J i d (d.close i) := by
  refine hs.closed (closed_close i d) (fun _ _ => rfl) ?_
  intro hd' h' p hhd' hp hname
  obtain rfl : hd = hd' := Option.some.inj (hhd.symm.trans hhd')
  obtain rfl := hs.hash_eq hhd hpath hp hname
  have hiff : ∀ {j hd'}, (d.close i).handles j = some hd' ↔ j ≠ i ∧ d.handles j = some hd' :=
    (closed_close i d).handles_iff
  intro hcut hstraight
  -- the others and this one write what is right
  obtain ⟨hupto, hall⟩ := hs.progress h' _ p hp hname hcut fun j hd' hj hx' => by
    by_cases hji : j = i
    · obtain rfl : hd = hd' := Option.some.inj (hhd.symm.trans (hji ▸ hj))
      exact hwrote ▸ List.prefix_refl _
    · exact hstraight j hd' (hiff.mpr ⟨hji, hj⟩) hx'
  refine ⟨fun j hd' hj hx' => hupto j hd' (hiff.mp hj).2 hx', fun hf => ?_⟩
  by_cases hfresh : hd.fresh = true
  · have hmine := hupto i hd hhd rfl hfresh
    rw [hwrote] at hmine
    exact ⟨hmine.eq, hsha1⟩
  · refine hall fun j hd' hj hx' => ?_
    by_cases hji : j = i
    · obtain rfl : hd = hd' := Option.some.inj (hhd.symm.trans (hji ▸ hj))
      simpa using hfresh
    · exact hf j hd' (hiff.mpr ⟨hji, hj⟩) hx'

end calls

/-! ### What a process does is safe -/

variable {cfg : Config} {hb : Hashable}

/-- What is safe for process `i`. -/
abbrev Keeps [DecidableEq ι] (cfg : Config) (repo : Bytes) (sha1 : Bytes → Hash) (content : Hash → Bytes)
    (J : ι → Hash → Prop) (i : ι) {α : Type} (p : P α) (Q : α → Disk ι → Prop)
    (E : Stop → Disk ι → Prop) (d : Disk ι) : Prop :=
  Safe (performs cfg i) (Sound repo sha1 content J) (Rely repo J i) (Guar repo J i) p Q E d

/-- The process has nothing open. -/
def Idle (i : ι) (d : Disk ι) : Prop := d.handles i = none

/-- The process has written `data` to the temporary file for `h`; if nobody else copies these contents,
the file is still there. -/
def Writing (repo : Bytes) (J : ι → Hash → Prop) (i : ι) (h : Hash) (data : Bytes) (d : Disk ι) : Prop :=
  ∃ hd, d.handles i = some hd ∧ hd.path = tmpPath repo h ∧ hd.wrote = data ∧
    (Alone J i h → d.names (tmpPath repo h) = some (.file hd.ino) ∧ (d.inodes hd.ino).cut = false)

/-- If nobody else copies these contents, nobody has cut the temporary file. -/
def Uncut (repo : Bytes) (J : ι → Hash → Prop) (i : ι) (h : Hash) (d : Disk ι) : Prop :=
  Alone J i h → ∀ x, d.names (tmpPath repo h) = some (.file x) → (d.inodes x).cut = false

/-- There is an object with the hash `h`. -/
def Has (repo : Bytes) (h : Hash) (d : Disk ι) : Prop := (d.names (objectPath repo h)).isSome = true

theorem stable_idle : Stable (Rely repo J i) (Idle i) := by
  intro d d' hR hd
  rcases hR.handle with he | ⟨hd', hs, -⟩
  · exact he.trans hd
  · rw [hd] at hs
    cases hs

theorem stable_has (h : Hash) : Stable (Rely repo J i) (Has repo h) := fun _ _ hR => hR.objects h

theorem stable_writing (hJ : J i h) (data : Bytes) :
    Stable (Rely repo J i) (Writing repo J i h data) := by
  rintro d d' hR ⟨hd, hhd, hpath, hwrote, hmine⟩
  have hkeep : Alone J i h → d'.names (tmpPath repo h) = some (.file hd.ino) ∧
      (d'.inodes hd.ino).cut = false := by
    intro ha
    obtain ⟨hname, hcut⟩ := hmine ha
    obtain ⟨hnames, hcuts⟩ := hR.mine h hJ ha
    exact ⟨hnames.trans hname, (hcuts _ hname).trans hcut⟩
  rcases hR.handle with he | ⟨hd', hs, he⟩
  · exact ⟨hd, he.trans hhd, hpath, hwrote, hkeep⟩
  · obtain rfl := Option.some.inj (hhd.symm.trans hs)
    exact ⟨_, he, hpath, hwrote, hkeep⟩

theorem stable_uncut (hJ : J i h) : Stable (Rely repo J i) (Uncut repo J i h) := by
  intro d d' hR hd ha x hx
  obtain ⟨hnames, hcuts⟩ := hR.mine h hJ ha
  rw [hnames] at hx
  exact (hcuts x hx).trans (hd ha x hx)

/-- Nothing is done. -/
theorem guar_refl : Guar repo J i d d :=
  ⟨fun _ h => h, fun _ _ => .refl _, fun _ _ _ _ _ => ⟨rfl, fun _ _ => rfl⟩⟩

variable [DecidableEq ι]

/-! #### Calls -/

theorem safe_exists {A : Disk ι → Prop} (hA : Stable (Rely repo J i) A) (path : Bytes) (hd : A d) :
    Keeps cfg repo sha1 content J i (exists_ path) (fun _ => A) (fun _ _ => True) d := by
  refine Safe.perform hA (fun _ => hA) (fun _ => .true _) ?_ hd
  rintro d₁ hA₁ hs r d₂ (⟨rfl, found, rfl, -⟩ | ⟨rfl, s, rfl⟩)
  · exact ⟨hs, guar_refl, hA₁⟩
  · exact ⟨hs, guar_refl, trivial⟩

theorem safe_exists_object (h : Hash) (hd : Idle i d) :
    Keeps cfg repo sha1 content J i (exists_ (objectPath repo h))
      (fun found d => Idle i d ∧ (found = true → Has repo h d)) (fun _ _ => True) d := by
  refine Safe.perform stable_idle (fun found => stable_idle.and ?_) (fun _ => .true _) ?_ hd
  · exact fun d d' hR hd hfound => stable_has h d d' hR (hd hfound)
  · rintro d₁ hA₁ hs r d₂ (⟨rfl, found, rfl, hfound⟩ | ⟨rfl, s, rfl⟩)
    · exact ⟨hs, guar_refl, hA₁, hfound⟩
    · exact ⟨hs, guar_refl, trivial⟩

theorem safe_openHost {A : Disk ι → Prop} (hA : Stable (Rely repo J i) A) (path : Bytes) (hd : A d) :
    Keeps cfg repo sha1 content J i (openHost path)
      (fun a d => A d ∧ WasRead cfg path a.1 a.2) (fun _ _ => True) d := by
  refine Safe.perform hA (fun a => hA.and fun _ _ _ h => h) (fun _ => .true _) ?_ hd
  rintro d₁ hA₁ hs r d₂ (⟨rfl, n, a, rfl, hread⟩ | ⟨rfl, e, rfl⟩)
  · exact ⟨hs, guar_refl, hA₁, n, hread⟩
  · exact ⟨hs, guar_refl, trivial⟩

theorem safe_readHost {A : Disk ι → Prop} (hA : Stable (Rely repo J i) A) (path : Bytes) (hd : A d) :
    Keeps cfg repo sha1 content J i (readHost path) (fun _ => A) (fun _ _ => True) d := by
  refine Safe.perform hA (fun _ => hA) (fun _ => .true _) ?_ hd
  rintro d₁ hA₁ hs r d₂ ⟨rfl, rfl⟩
  exact ⟨hs, guar_refl, hA₁⟩

theorem safe_mkdir {path : Bytes} (hlen : path.length < repo.length + 52) (hd : Idle i d) :
    Keeps cfg repo sha1 content J i (mkdir path) (fun _ => Idle i) (fun _ _ => True) d := by
  refine Safe.perform stable_idle (fun _ => stable_idle) (fun _ => .true _) ?_ hd
  rintro d₁ hA₁ hs r d₂ (⟨hmkdir, rfl⟩ | ⟨rfl, e, rfl⟩)
  · have hm := madeDir_mkdir hmkdir
    obtain ⟨hs₂, hG⟩ := hs.madeDir hlen hm i
    exact ⟨hs₂, hG, (congrFun hm.handles i).trans hA₁⟩
  · exact ⟨hs, guar_refl, trivial⟩

theorem safe_openWrite (hJ : J i h) (hd : Idle i d) :
    Keeps cfg repo sha1 content J i (openWrite (tmpPath repo h))
      (fun f d => f = ⟨tmpPath repo h, false, []⟩ ∧ Writing repo J i h [] d) (fun _ => Idle i) d := by
  refine Safe.perform stable_idle (fun f => Stable.and (fun _ _ _ h => h) (stable_writing hJ []))
    (fun _ => stable_idle) ?_ hd
  rintro d₁ hA₁ hs r d₂ (⟨hopen, rfl⟩ | ⟨rfl, e, rfl⟩)
  · obtain ⟨x, ho⟩ := openedAt_openWrite hopen
    obtain ⟨hs₂, hG⟩ := hs.openedAt hJ hA₁ ho
    exact ⟨hs₂, hG, rfl, _, ho.handle, rfl, rfl, fun _ => ⟨ho.name, by rw [ho.inode]⟩⟩
  · exact ⟨hs, guar_refl, hA₁⟩

theorem safe_writebytes (hJ : J i h) {data : Bytes} (path block : Bytes)
    (hd : Writing repo J i h data d) :
    Keeps cfg repo sha1 content J i (writebytes path block)
      (fun _ => Writing repo J i h (data ++ block)) (fun _ _ => True) d := by
  refine Safe.perform (stable_writing hJ data) (fun _ => stable_writing hJ _) (fun _ => .true _) ?_ hd
  rintro d₁ ⟨hd, hhd, hpath, rfl, hmine⟩ hs r d₂ (⟨hwrite, rfl⟩ | ⟨⟨n, hwrite⟩, e, rfl⟩ | ⟨rfl, e, rfl⟩)
  · obtain ⟨hd', hw⟩ := wrote_writebytes hwrite
    obtain rfl := Option.some.inj (hhd.symm.trans hw.was)
    obtain ⟨hs₂, hG⟩ := hs.wrote hw
    refine ⟨hs₂, hG, _, hw.handle, hpath, rfl, fun ha => ?_⟩
    rw [hw.names, hw.inode]
    exact hmine ha
  · obtain ⟨hd', hw⟩ := wrote_writebytes hwrite
    obtain ⟨hs₂, hG⟩ := hs.wrote hw
    exact ⟨hs₂, hG, trivial⟩
  · exact ⟨hs, guar_refl, trivial⟩

theorem safe_close (hJ : J i h) (hsha1 : sha1 (content h) = h) (hd : Writing repo J i h (content h) d) :
    Keeps cfg repo sha1 content J i close (fun _ d => Idle i d ∧ Uncut repo J i h d)
      (fun _ _ => True) d := by
  refine Safe.perform (stable_writing hJ _) (fun _ => stable_idle.and (stable_uncut hJ))
    (fun _ => .true _) ?_ hd
  rintro d₁ ⟨hd, hhd, hpath, hwrote, hmine⟩ hs r d₂ ⟨rfl, rfl⟩
  obtain ⟨hs₂, hG⟩ := hs.close hhd hpath hwrote hsha1
  refine ⟨hs₂, hG, (closed_close i d₁).handle, fun ha x hx => ?_⟩
  obtain ⟨hname, hcut⟩ := hmine ha
  obtain rfl : hd.ino = x := by simpa using hname.symm.trans hx
  exact hcut

theorem safe_rename (hJ : J i h) (hd : Idle i d ∧ Uncut repo J i h d) :
    Keeps cfg repo sha1 content J i (rename (tmpPath repo h) (objectPath repo h))
      (fun _ d => Idle i d ∧ Has repo h d) (fun _ _ => True) d := by
  refine Safe.perform (stable_idle.and (stable_uncut hJ)) (fun _ => stable_idle.and (stable_has h))
    (fun _ => .true _) ?_ hd
  rintro d₁ ⟨hidle, huncut⟩ hs r d₂ (⟨hrename, rfl⟩ | ⟨rfl, e, rfl⟩)
  · obtain ⟨x, hm⟩ := moved_rename hrename
    obtain ⟨hs₂, hG⟩ := hs.moved hJ hidle huncut hm
    refine ⟨hs₂, hG, (congrFun hm.handles i).trans hidle, ?_⟩
    unfold Has
    rw [hm.name]
    rfl
  · exact ⟨hs, guar_refl, trivial⟩

/-! #### Programs -/

theorem safe_makedir {path : Bytes} (hlen : path.length < repo.length + 52) (hd : Idle i d) :
    Keeps cfg repo sha1 content J i (do if ← exists_ path then return else mkdir path)
      (fun _ => Idle i) (fun _ _ => True) d := by
  refine Safe.bind ((safe_exists stable_idle path hd).mono ?_ fun _ _ _ => trivial)
  intro found d₁ h₁
  refine Safe.ite (fun _ => .pure stable_idle h₁) fun _ => safe_mkdir hlen h₁

theorem safe_makedirs {path : Bytes} (hlen : path.length < repo.length + 52) (hd : Idle i d) :
    Keeps cfg repo sha1 content J i (makedirs path) (fun _ => Idle i) (fun _ _ => True) d := by
  refine Safe.bind ((safe_exists stable_idle path hd).mono ?_ fun _ _ _ => trivial)
  intro found d₁ h₁
  refine Safe.ite (fun _ => .pure stable_idle h₁) fun _ => Safe.bind ?_
  refine (Safe.forM (fun _ => Idle i) (fun _ => stable_idle) ?_ h₁).mono
    (fun _ d₂ h₂ => safe_mkdir hlen h₂) fun _ _ h => h
  intro pre dir post d₂ hsplit h₂
  have hshort : dir.length < path.length := length_of_mem_parents (by rw [hsplit]; simp)
  exact safe_makedir (hshort.trans hlen) h₂

theorem safe_openObject (hJ : J i h) (hd : Idle i d) :
    Keeps cfg repo sha1 content J i (openObject (objectPath repo h))
      (fun f d => f = ⟨tmpPath repo h, false, []⟩ ∧ Writing repo J i h [] d) (fun _ _ => True) d := by
  refine Safe.handle ((safe_openWrite hJ hd).mono (fun _ _ h => h) ?_)
  intro stop d₁ h₁
  split
  · refine Safe.ite (fun _ => Safe.bind ?_) fun _ => .throw (.true _) trivial
    refine (safe_makedirs (objectDir_length repo h) h₁).mono (fun _ d₂ h₂ => ?_) fun _ _ h => h
    exact (safe_openWrite hJ h₂).mono (fun _ _ h => h) fun _ _ _ => trivial
  · exact .throw (.true _) trivial

/-- What has been put into the file: some is written, the rest is in the buffer. -/
def Holding (repo : Bytes) (J : ι → Hash → Prop) (i : ι) (h : Hash) (data : Bytes) (f : OFile)
    (d : Disk ι) : Prop :=
  (f.writing = false → f.buf = []) ∧ ∃ w, w ++ f.buf = data ∧ Writing repo J i h w d

omit [DecidableEq ι] in
theorem stable_holding (hJ : J i h) (data : Bytes) (f : OFile) :
    Stable (Rely repo J i) (Holding repo J i h data f) := by
  rintro d d' hR ⟨hbuf, w, hw, hwriting⟩
  exact ⟨hbuf, w, hw, stable_writing hJ w d d' hR hwriting⟩

theorem safe_flush (hJ : J i h) {data : Bytes} {f : OFile} (hd : Holding repo J i h data f d) :
    Keeps cfg repo sha1 content J i (flush f)
      (fun f' d => (f'.writing = true ∧ f'.buf = []) ∧ Writing repo J i h data d)
      (fun _ _ => True) d := by
  obtain ⟨hbuf, w, rfl, hwriting⟩ := hd
  have hreturn : ∀ d₁, Writing repo J i h (w ++ f.buf) d₁ → Keeps cfg repo sha1 content J i
      (pure { f with writing := true, buf := [] }) (fun f' d => (f'.writing = true ∧ f'.buf = []) ∧
        Writing repo J i h (w ++ f.buf) d) (fun _ _ => True) d₁ := fun d₁ h₁ =>
    .pure (Stable.and (fun _ _ _ h => h) (stable_writing hJ _)) ⟨⟨rfl, rfl⟩, h₁⟩
  refine Safe.ite (fun _ => Safe.bind ?_) fun hnot => ?_
  · exact (safe_writebytes hJ f.path f.buf hwriting).mono (fun _ => hreturn) fun _ _ h => h
  · -- there is nothing to write
    have hnil : f.buf = [] := by
      by_contra hne
      exact hnot ⟨by simpa using mt hbuf hne, by simpa using hne⟩
    refine hreturn d ?_
    rwa [hnil, List.append_nil]

theorem safe_put (hJ : J i h) {data : Bytes} {f : OFile} (s : Bytes)
    (hd : Holding repo J i h data f d) :
    Keeps cfg repo sha1 content J i (put f s) (Holding repo J i h (data ++ s)) (fun _ _ => True) d := by
  refine Safe.foldlM (fun pre => Holding repo J i h (data ++ pre)) (fun _ f => stable_holding hJ _ f)
    ?_ (by rwa [List.append_nil])
  intro pre c post f₁ d₁ _ h₁
  -- a character goes to the end of the buffer
  have hreturn : ∀ f₂ d₂, Holding repo J i h (data ++ pre) f₂ d₂ → f₂.writing = true →
      Keeps cfg repo sha1 content J i (pure { f₂ with buf := f₂.buf ++ [c] })
        (Holding repo J i h (data ++ (pre ++ [c]))) (fun _ _ => True) d₂ := by
    rintro f₂ d₂ ⟨-, w, hw, hwriting⟩ htrue
    refine .pure (stable_holding hJ _ _) ⟨fun hfalse => ?_, w, ?_, hwriting⟩
    · rw [htrue] at hfalse
      cases hfalse
    · rw [← List.append_assoc, hw, List.append_assoc]
  refine Safe.ite (fun _ => Safe.bind ?_) fun hnot => Safe.bind ?_
  · refine (safe_flush hJ h₁).mono (fun f₂ d₂ hf => ?_) fun _ _ h => h
    obtain ⟨⟨htrue, hnil⟩, hwriting⟩ := hf
    exact hreturn f₂ d₂ ⟨fun _ => hnil, _, by rw [hnil, List.append_nil], hwriting⟩ htrue
  · refine fun d₂ hR => hreturn f₁ d₂ (stable_holding hJ _ f₁ d₁ d₂ hR h₁) ?_
    by_contra hw
    exact hnot (.inl (by simpa using hw))

/-- **Copying is safe.** -/
theorem safe_copyFile (hJ : J i hb.hash) (hhp : hb.hp = objectPath repo hb.hash)
    (hrecheck : cfg.recheckhash = true) (hsha1 : cfg.sha1 = sha1)
    (hcontent : ∀ path data, WasRead cfg path data none → content (sha1 data) = data)
    (hd : Idle i d) :
    Keeps cfg repo sha1 content J i (copyFile cfg hb) (fun _ d => Idle i d ∧ Has repo hb.hash d)
      (fun _ _ => True) d := by
  unfold copyFile
  rw [hhp]
  refine Safe.bind ((safe_openHost stable_idle hb.path hd).mono ?_ fun _ _ h => h)
  rintro ⟨data, fault⟩ d₁ ⟨h₁, hread⟩
  refine Safe.bind ((safe_openObject hJ h₁).mono ?_ fun _ _ h => h)
  rintro f d₂ ⟨rfl, h₂⟩
  refine Safe.bind ((safe_readHost (stable_writing hJ []) hb.path h₂).mono ?_ fun _ _ h => h)
  intro _ d₃ h₃
  refine Safe.bind ((safe_put hJ data ⟨fun _ => rfl, [], rfl, h₃⟩).mono ?_ fun _ _ h => h)
  intro f d₄ h₄
  rw [List.nil_append] at h₄
  cases fault with
  | some e => exact .throw (.true _) trivial
  | none =>
    refine Safe.ite (fun _ => .throw (.true _) trivial) fun hsame => ?_
    -- these are the contents with the hash
    have hhash : sha1 data = hb.hash := by simpa [hrecheck, hsha1] using hsame
    have hdata : content hb.hash = data := hhash ▸ hcontent hb.path data hread
    refine Safe.bind ((safe_flush hJ h₄).mono ?_ fun _ _ h => h)
    rintro _ d₅ ⟨-, h₅⟩
    rw [← hdata] at h₅ hhash
    refine Safe.bind ((safe_close hJ hhash h₅).mono (fun _ d₆ h₆ => ?_) fun _ _ h => h)
    exact safe_rename hJ h₆

/-- **What `addHashable` does is safe**, and when it returns, the object is there. -/
theorem safe_addHashable (hJ : J i hb.hash) (hhp : hb.hp = objectPath repo hb.hash)
    (hrecheck : cfg.recheckhash = true) (hsha1 : cfg.sha1 = sha1)
    (hcontent : ∀ path data, WasRead cfg path data none → content (sha1 data) = data)
    (hd : Idle i d) :
    Keeps cfg repo sha1 content J i (addHashable cfg hb) (fun _ d => Idle i d ∧ Has repo hb.hash d)
      (fun _ _ => True) d := by
  unfold addHashable
  rw [hhp]
  refine Safe.bind ((safe_exists_object hb.hash hd).mono ?_ fun _ _ h => h)
  rintro found d₁ ⟨h₁, hfound⟩
  refine Safe.ite (fun htrue => ?_) fun _ => safe_copyFile hJ hhp hrecheck hsha1 hcontent h₁
  exact .pure (stable_idle.and (stable_has _)) ⟨h₁, hfound htrue⟩

/-! ### All of them -/

theorem hexValue_of_mem_hexencode {bytes : Bytes} {c : UInt8} (hc : c ∈ hexencode bytes) :
    (hexValue c).isSome := by
  obtain ⟨b, -, hb⟩ := List.mem_flatMap.mp hc
  obtain ⟨x, y, m, n, hxy, hx, hy, -⟩ := hexByte_spec b
  rw [hxy] at hb
  rcases List.mem_cons.mp hb with rfl | hb
  · rw [hx]
    rfl
  · rw [List.mem_singleton.mp hb, hy]
    rfl

/-- No object is taken for a temporary file. -/
theorem not_tmp_objectPath (repo : Bytes) (h : Hash) :
    (lit ".tmp").isSuffixOf (objectPath repo h) = false := by
  rw [← Bool.not_eq_true, List.isSuffixOf_iff_suffix]
  intro htmp
  have hhex : hexencode h.bytes <:+ objectPath repo h := by
    rw [objectPath, hashpath, hex02_eq, ← List.append_assoc]
    exact List.suffix_append _ _
  have hshort : (lit ".tmp").length ≤ (hexencode h.bytes).length := by
    rw [hexencode_hash_length]
    decide
  have hdot : 46 ∈ hexencode h.bytes :=
    (List.suffix_of_suffix_length_le htmp hhex hshort).mem (by decide)
  exact absurd (hexValue_of_mem_hexencode hdot) (by decide)

omit [DecidableEq ι] in
theorem names_ofStore {s : Store} {p : Bytes} :
    (Disk.ofStore s : Disk ι).names p = some (.file x) ↔
      ∃ data, s.lookup p = some (.file data) ∧ s.keys.idxOf p = x := by
  change (s.lookup p).map _ = _ ↔ _
  cases s.lookup p with
  | none => simp
  | some node => cases node <;> simp

omit [DecidableEq ι] in
theorem inodes_ofStore {s : Store} {p data : Bytes} (hp : s.lookup p = some (.file data)) :
    (Disk.ofStore s : Disk ι).inodes (s.keys.idxOf p) = ⟨data, (lit ".tmp").isSuffixOf p⟩ := by
  have hmem : p ∈ s.keys := by
    exact AList.mem_keys.mp (AList.lookup_isSome.mp (by rw [hp]; rfl))
  simp only [Disk.ofStore, List.getElem?_idxOf hmem, hp]

omit [DecidableEq ι] in
theorem named_ofStore {s : Store} {p : Bytes}
    (hp : (Disk.ofStore s : Disk ι).names p = some (.file x)) : x < s.keys.length := by
  obtain ⟨data, hlookup, rfl⟩ := names_ofStore.mp hp
  refine List.idxOf_lt_length_of_mem ?_
  exact AList.mem_keys.mp (AList.lookup_isSome.mp (by rw [hlookup]; rfl))

omit [DecidableEq ι] in
theorem unlinked_ofStore {s : Store} {p q : Bytes}
    (hp : (Disk.ofStore s : Disk ι).names p = some (.file x))
    (hq : (Disk.ofStore s : Disk ι).names q = some (.file x)) : p = q := by
  obtain ⟨data, hlookup, rfl⟩ := names_ofStore.mp hp
  obtain ⟨data', -, he⟩ := names_ofStore.mp hq
  refine (List.idxOf_inj ?_).mp he.symm
  exact AList.mem_keys.mp (AList.lookup_isSome.mp (by rw [hlookup]; rfl))

omit [DecidableEq ι] in
/-- **The invariant holds of a good repository**, when nobody has opened anything. -/
theorem sound_ofStore {s : Store} (hgood : ∀ h node, s.lookup (objectPath repo h) = some node →
      ∃ c, node = .file c ∧ content h = c ∧ sha1 c = h) :
    Sound repo sha1 content J (Disk.ofStore s : Disk ι) := by
  have hnone : ∀ j hd, (Disk.ofStore s : Disk ι).handles j ≠ some hd := by
    intro j hd hj
    cases hj
  refine ⟨fun p x => named_ofStore, fun p q x => unlinked_ofStore, fun h e he => ?_,
    fun j hd hj => absurd hj (hnone j hd), fun j hd h p hj => absurd hj (hnone j hd),
    fun h x p hp hname => ?_, fun h x _ hname => ?_⟩
  · change (s.lookup _).map _ = _ at he
    obtain ⟨node, hnode, he⟩ := Option.map_eq_some_iff.mp he
    obtain ⟨c, rfl, -⟩ := hgood h node hnode
    exact ⟨_, he.symm⟩
  · obtain ⟨data, hdata, rfl⟩ := names_ofStore.mp hname
    intro hcut _
    rw [inodes_ofStore hdata] at hcut ⊢
    refine ⟨fun j hd hj => absurd hj (hnone j hd), fun _ => ?_⟩
    rcases hp with rfl | rfl
    · -- what a temporary file has is not known
      have hsuffix : (lit ".tmp").isSuffixOf (tmpPath repo h) = true := by
        rw [List.isSuffixOf_iff_suffix]
        exact List.suffix_append _ _
      rw [show (_ : Stored).cut = _ from hsuffix] at hcut
      cases hcut
    · obtain ⟨c, hc, hcontent, hsha1⟩ := hgood h _ hdata
      obtain rfl := Node.file.inj hc
      exact ⟨hcontent.symm, hcontent.symm ▸ hsha1⟩
  · obtain ⟨data, hdata, rfl⟩ := names_ofStore.mp hname
    refine ⟨?_, fun j hd hj => absurd hj (hnone j hd)⟩
    rw [inodes_ofStore hdata]
    exact not_tmp_objectPath repo h

/-- The contents that there are, in the repository and in the files that are backed up. -/
def contents (repo : Bytes) (cfg : ι → Config) (s : Store) : Set Bytes :=
  {c | (∃ h, s.lookup (objectPath repo h) = some (.file c)) ∨ ∃ i path, WasRead (cfg i) path c none}

/-- Each process copies what it has found to be missing. -/
def start (cfg : ι → Config) (jobs : ι → List Hashable) (s : Store) :
    Pool ι Call Res Stop Unit (Disk ι) :=
  ⟨Disk.ofStore s, fun i => some ((jobs i).forM (addHashable (cfg i)))⟩

/-- **Backups at the same time.**  However the calls of any number of backups of one repository follow
each other, whatever fails and wherever they are stopped: an object has the hash of its name at any
moment, unless two of them have that hash to copy, and some process has the file open, or was stopped
when it had.  When a backup has got through, all that it had to copy is there. -/
theorem copied_together (repo : Bytes) (sha1 : Bytes → Hash) (cfg : ι → Config)
    (jobs : ι → List Hashable) (s : Store) (P : Pool ι Call Res Stop Unit (Disk ι))
    (hsha1 : ∀ i, (cfg i).sha1 = sha1) (hrecheck : ∀ i, (cfg i).recheckhash = true)
    (hjobs : ∀ i, ∀ hb ∈ jobs i, hb.hp = objectPath repo hb.hash)
    (hgood : ∀ h node, s.lookup (objectPath repo h) = some node → ∃ c, node = .file c ∧ sha1 c = h)
    (hcollisions : Set.InjOn sha1 (contents repo cfg s))
    (hsteps : Pool.Steps (fun i => performs (cfg i) i) Disk.die (start cfg jobs s) P) :
    (∀ h x, P.shared.names (objectPath repo h) = some (.file x) →
      sha1 (P.shared.inodes x).data = h ∨
        (∃ i j, i ≠ j ∧ h ∈ (jobs i).map Hashable.hash ∧ h ∈ (jobs j).map Hashable.hash) ∧
          ¬ P.shared.Settled x) ∧
    ∀ i, P.procs i = some (.ret ()) → ∀ hb ∈ jobs i,
      ∃ x, P.shared.names (objectPath repo hb.hash) = some (.file x) := by
  -- the contents that have a hash
  obtain ⟨content, hcontent⟩ : ∃ content : Hash → Bytes,
      ∀ c ∈ contents repo cfg s, content (sha1 c) = c :=
    ⟨Function.invFunOn sha1 (contents repo cfg s), hcollisions.leftInvOn_invFunOn⟩
  have hstart : Pool.AllSafe (fun i => performs (cfg i) i)
      (Sound repo sha1 content fun i h => h ∈ (jobs i).map Hashable.hash)
      (Rely repo fun i h => h ∈ (jobs i).map Hashable.hash)
      (Guar repo fun i h => h ∈ (jobs i).map Hashable.hash)
      (fun i _ d => Idle i d ∧ ∀ hb ∈ jobs i, Has repo hb.hash d) (fun _ _ _ => True)
      (start cfg jobs s) := by
    refine ⟨sound_ofStore fun h node hnode => ?_, fun i p hp => ?_⟩
    · obtain ⟨c, rfl, hc⟩ := hgood h node hnode
      exact ⟨c, rfl, hc ▸ hcontent c (.inl ⟨h, hnode⟩), hc⟩
    · obtain rfl := Option.some.inj hp
      refine Safe.forM (fun (pre : List Hashable) d => Idle i d ∧ ∀ hb ∈ pre, Has repo hb.hash d) ?_ ?_
        ⟨rfl, by simp⟩
      · exact fun pre => stable_idle.and fun d d' hR hd hb hm => stable_has _ d d' hR (hd hb hm)
      · rintro pre hb post d hsplit ⟨hidle, hdone⟩
        have hmem : hb ∈ jobs i := by rw [hsplit]; simp
        have hJ : hb.hash ∈ (jobs i).map Hashable.hash := List.mem_map_of_mem hmem
        have hadd := safe_addHashable (J := fun i h => h ∈ (jobs i).map Hashable.hash) hJ (hjobs i hb hmem) (hrecheck i)
          (hsha1 i) (fun path data hread => hcontent data (.inr ⟨i, path, hread⟩)) hidle
        -- what has been copied before stays there
        refine (hadd.frame (A := fun d => ∀ hb ∈ pre, Has repo hb.hash d) ?_ ?_ hdone).mono ?_
          fun _ _ h => h
        · exact fun d d' hR hd hb hm => stable_has _ d d' hR (hd hb hm)
        · exact fun d d' hG hd hb hm => hG.objects _ (hd hb hm)
        · rintro _ d' ⟨⟨hidle', hhas⟩, hdone'⟩
          refine ⟨hidle', fun hb' hm => ?_⟩
          rcases List.mem_append.mp hm with hm | hm
          · exact hdone' hb' hm
          · rw [List.mem_singleton.mp hm]
            exact hhas
  obtain hend := hstart.steps (fun i j d d' hij hG => hG.rely (Ne.symm hij)) (fun i d hs => hs.die i) hsteps
  refine ⟨fun h x hname => ?_, fun i hi hb hm => ?_⟩
  · by_cases hsettled : P.shared.Settled x
    · obtain ⟨hcut, hopen⟩ := hsettled
      left
      obtain ⟨-, hall⟩ := hend.invariant.progress h x _ (.inr rfl) hname hcut
        fun j hd hj hx => absurd hx (hopen j hd hj)
      obtain ⟨hdata, hhash⟩ := hall fun j hd hj hx => absurd hx (hopen j hd hj)
      rw [hdata, hhash]
    · refine .inr ⟨?_, hsettled⟩
      by_contra hnone
      refine hsettled (hend.invariant.apart h x (fun i hi j hj => ?_) hname)
      by_contra hij
      exact hnone ⟨j, i, hij, hj, hi⟩
  · obtain ⟨-, hhas⟩ := hend.returned hi
    obtain ⟨e, he⟩ := Option.isSome_iff_exists.mp (hhas hb hm)
    obtain ⟨x, rfl⟩ := hend.invariant.objects hb.hash e he
    exact ⟨x, he⟩

/-- The file of `largeFile`, which two processes are to copy. -/
def largeJob : Hashable :=
  ⟨lit "/home/a", objectPath (lit "repo") ((largeFile 0).sha1 []), (largeFile 0).sha1 []⟩

/-- Two backups find the file missing; one of them copies it, while the other has yet to read it. -/
theorem copied_largeFile : ∃ P : Pool Bool Call Res Stop Unit (Disk Bool),
    Pool.Steps (fun i => performs (largeFile 1000) i) Disk.die
      (start (fun _ => largeFile 1000) (fun _ => [largeJob]) ∅) P ∧
    P.procs true = some (.ret ()) ∧
    P.procs false = some (copyFile (largeFile 1000) largeJob >>= fun _ => pure ()) ∧
    ∃ x, P.shared.names largeJob.hp = some (.file x) ∧
      ((largeFile 1000).sha1 (P.shared.inodes x).data = largeJob.hash ∨ ¬ P.shared.Settled x) := by
  have hvalue : value? ([largeJob].forM (Hbackup.addHashable (largeFile 1000))) { store := ∅ } =
      some () := by decide +kernel
  obtain ⟨w, hrun⟩ : ∃ w, [largeJob].forM (Hbackup.addHashable (largeFile 1000)) { store := ∅ } =
      .ok () w := ⟨_, ok_of_value? hvalue⟩
  have hquiet : Matches true none (Disk.ofStore ∅ : Disk Bool) { store := ∅ } := by
    refine ⟨fun p => rfl, fun p x hp => ?_, fun p q x hp => ?_, rfl⟩
    · cases hp
    · cases hp
  obtain ⟨d, hruns, -⟩ := wp_elim_ok (wp_addHashables rfl [largeJob] hquiet) hrun
  -- the other one has looked, and found nothing
  have hlooks : Runs (performs (largeFile 1000) false) (addHashable (largeFile 1000) largeJob)
      (Disk.ofStore ∅ : Disk Bool) (copyFile (largeFile 1000) largeJob) (Disk.ofStore ∅) :=
    .call (r := .ok false) (.inl ⟨rfl, false, rfl, by simp⟩) (.refl _ _)
  have hlooked := Runs.steps (fun i : Bool => performs (largeFile 1000) i) Disk.die
    (hlooks.bind fun _ => pure ())
    (show (start (fun _ => largeFile 1000) (fun _ => [largeJob]) ∅).procs false = _ from rfl)
  have hsteps := hlooked.trans (Runs.steps (fun i : Bool => performs (largeFile 1000) i) Disk.die hruns
    ((Function.update_of_ne (by decide) _ _).trans
      (show (start (fun _ => largeFile 1000) (fun _ => [largeJob]) ∅).procs true = _ from rfl)))
  have hread : ∀ c ∈ contents (lit "repo") (fun _ : Bool => largeFile 1000) ∅,
      c = List.replicate 300 1 := by
    rintro c (⟨h, hc⟩ | ⟨i, path, n, hc⟩)
    · cases hc
    · exact (Prod.mk.inj (Except.ok.inj hc)).1.symm
  obtain ⟨hgood, hthere⟩ := copied_together (lit "repo") (largeFile 1000).sha1
    (fun _ : Bool => largeFile 1000) (fun _ => [largeJob]) ∅ _ (fun _ => rfl) (fun _ => rfl)
    (fun i hb hm => by rw [List.mem_singleton.mp hm]; rfl) (fun h node hnode => by cases hnode)
    (fun c hc c' hc' _ => (hread c hc).trans (hread c' hc').symm) hsteps
  refine ⟨_, hsteps, by simp, by simp, ?_⟩
  obtain ⟨x, hx⟩ := hthere true (by simp) largeJob (by simp)
  exact ⟨x, hx, (hgood _ x hx).imp id And.right⟩

end Hbackup.Shared
