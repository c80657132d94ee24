import Mathlib.Data.List.Basic
import Mathlib.Data.UInt
import Mathlib.Tactic.Common

/-!
# Form encoding of byte strings

The text format of URL query strings: `+` stands for a space, `%XX` for any byte, and a plain byte
for itself.  `Encodes t s` says that the text `t` is *an* encoding of `s`: which bytes are escaped,
and the case of the hexadecimal digits, are left open, so that every encoder that escapes enough
satisfies it (`Encodes.flatMap`) and every decoder that follows the format inverts it
(`decode_of_encodes`).

Encoded text is free of the separators (`Encodes.separator_not_mem`).  A prefix of encoded text is
decodable exactly if it does not end inside an escape, and then it decodes to a shorter string
(`decode_prefix`).
-/

namespace FormCoding

/-- A property of bytes may be checked on the 256 of them, by their halves. -/
theorem forall_byte {p : UInt8 → Prop} [DecidablePred p]
    (h : ∀ a b : Fin 16, p (UInt8.ofNat (16 * a.val + b.val))) (c : UInt8) : p c := by
  have hlt := c.toNat_lt
  have hc := h ⟨c.toNat / 16, by omega⟩ ⟨c.toNat % 16, Nat.mod_lt _ (by decide)⟩
  have hsum : 16 * (c.toNat / 16) + c.toNat % 16 = c.toNat := Nat.div_add_mod _ _
  rw [show UInt8.ofNat (16 * (c.toNat / 16) + c.toNat % 16) = c by rw [hsum, UInt8.ofNat_toNat]] at hc
  exact hc

/-- The value of a hexadecimal digit of either case. -/
def hexValue (c : UInt8) : Option Nat :=
  if 48 ≤ c ∧ c ≤ 57 then some (c.toNat - 48)
  else if 65 ≤ c ∧ c ≤ 70 then some (c.toNat - 55)
  else if 97 ≤ c ∧ c ≤ 102 then some (c.toNat - 87)
  else none

/-- The bytes that separate fields and lines: `&`, `=`, `;`, newline and NUL. -/
def separators : List UInt8 := [38, 61, 59, 10, 0]

/-- A byte that may stand for itself: neither a separator nor `+` nor `%`. -/
def Plain (c : UInt8) : Prop := c ∉ separators ∧ c ≠ 43 ∧ c ≠ 37

instance (c : UInt8) : Decidable (Plain c) := by unfold Plain; infer_instance

/-- `t` is an encoding of `s`. -/
inductive Encodes : List UInt8 → List UInt8 → Prop
  | nil : Encodes [] []
  | plain {c : UInt8} {t s : List UInt8} (hc : Plain c) (h : Encodes t s) :
      Encodes (c :: t) (c :: s)
  | plus {t s : List UInt8} (h : Encodes t s) : Encodes (43 :: t) (32 :: s)
  | escape {x y : UInt8} {a b : Nat} {t s : List UInt8} (hx : hexValue x = some a)
      (hy : hexValue y = some b) (h : Encodes t s) :
      Encodes (37 :: x :: y :: t) (UInt8.ofNat (16 * a + b) :: s)

/-- Decoding; `none` if an escape is cut off or has a bad digit. -/
def decode : List UInt8 → Option (List UInt8)
  | [] => some []
  | c :: t =>
    if c = 43 then (decode t).map (32 :: ·)
    else if c = 37 then
      match t with
      | x :: y :: t' =>
        (hexValue x).bind fun a => (hexValue y).bind fun b =>
          (decode t').map (UInt8.ofNat (16 * a + b) :: ·)
      | _ => none
    else (decode t).map (c :: ·)

theorem decode_plus (t : List UInt8) : decode (43 :: t) = (decode t).map (32 :: ·) := by
  rcases t with _ | ⟨x, _ | ⟨y, t⟩⟩ <;> rfl

theorem decode_plain {c : UInt8} (t : List UInt8) (h43 : c ≠ 43) (h37 : c ≠ 37) :
    decode (c :: t) = (decode t).map (c :: ·) := by
  rcases t with _ | ⟨x, _ | ⟨y, t⟩⟩ <;> simp [decode, h43, h37]

theorem decode_escape (x y : UInt8) (t : List UInt8) :
    decode (37 :: x :: y :: t) = (hexValue x).bind fun a => (hexValue y).bind fun b =>
      (decode t).map (UInt8.ofNat (16 * a + b) :: ·) := by
  rfl

/-! ### Encodings -/

theorem hexValue_plain {x : UInt8} {a : Nat} (h : hexValue x = some a) : Plain x := by
  have hx := forall_byte (p := fun c => hexValue c = none ∨ Plain c) (by decide) x
  exact hx.resolve_left (by rw [h]; simp)

/-- **Decoding inverts every encoding.** -/
theorem decode_of_encodes {t s : List UInt8} (h : Encodes t s) : decode t = some s := by
  induction h with
  | nil => rfl
  | plain hc _ ih => rw [decode_plain _ hc.2.1 hc.2.2, ih]; rfl
  | plus _ ih => rw [decode_plus, ih]; rfl
  | escape hx hy _ ih => rw [decode_escape, hx, hy, ih]; rfl

theorem Encodes.append {t s t' s' : List UInt8} (h : Encodes t s) (h' : Encodes t' s') :
    Encodes (t ++ t') (s ++ s') := by
  induction h with
  | nil => exact h'
  | plain hc _ ih => exact .plain hc ih
  | plus _ ih => exact .plus ih
  | escape hx hy _ ih => exact .escape hx hy ih

/-- An encoder that encodes every byte on its own. -/
theorem Encodes.flatMap {f : UInt8 → List UInt8} (hf : ∀ c, Encodes (f c) [c]) :
    ∀ s : List UInt8, Encodes (s.flatMap f) s
  | [] => .nil
  | c :: s => by
    rw [List.flatMap_cons]
    exact (hf c).append (Encodes.flatMap hf s)

/-- Text without special bytes encodes itself. -/
theorem Encodes.self : ∀ {s : List UInt8}, (∀ c ∈ s, Plain c) → Encodes s s
  | [], _ => .nil
  | c :: _, h =>
    .plain (h c List.mem_cons_self) (Encodes.self fun x hx => h x (List.mem_cons_of_mem c hx))

theorem Encodes.separator_not_mem {t s : List UInt8} (h : Encodes t s) {c : UInt8}
    (hc : c ∈ separators) : c ∉ t := by
  have hne : ∀ {d : UInt8}, Plain d → c ≠ d := fun hd e => hd.1 (e ▸ hc)
  have h43 : c ≠ 43 := by rintro rfl; revert hc; decide
  have h37 : c ≠ 37 := by rintro rfl; revert hc; decide
  induction h with
  | nil => simp
  | plain hd _ ih => simp [hne hd, ih]
  | plus _ ih => simp [h43, ih]
  | escape hx hy _ ih => simp [h37, hne (hexValue_plain hx), hne (hexValue_plain hy), ih]

/-! ### What is decoded -/

/-- Every `%` is followed by two hexadecimal digits. -/
def EscapesWhole (t : List UInt8) : Prop :=
  ∀ u w, t = u ++ 37 :: w →
    ∃ x y w', w = x :: y :: w' ∧ (hexValue x).isSome ∧ (hexValue y).isSome

theorem escapesWhole_nil : EscapesWhole [] := by
  intro u w h
  simp at h

theorem escapesWhole_cons {c : UInt8} (hc : c ≠ 37) (t : List UInt8) :
    EscapesWhole (c :: t) ↔ EscapesWhole t := by
  constructor
  · intro h u w ht
    exact h (c :: u) w (by rw [ht]; rfl)
  · intro h u w ht
    cases u with
    | nil => exact absurd (List.cons.inj ht).1 hc
    | cons d u => exact h u w (List.cons.inj ht).2

theorem escapesWhole_escape (w : List UInt8) :
    EscapesWhole (37 :: w) ↔ ∃ x y w', w = x :: y :: w' ∧ (hexValue x).isSome ∧
      (hexValue y).isSome ∧ EscapesWhole w' := by
  have hne : ∀ {x : UInt8}, (hexValue x).isSome → x ≠ 37 := fun hx => by
    obtain ⟨a, ha⟩ := Option.isSome_iff_exists.mp hx
    exact (hexValue_plain ha).2.2
  constructor
  · intro h
    obtain ⟨x, y, w', rfl, hx, hy⟩ := h [] w rfl
    refine ⟨x, y, w', rfl, hx, hy, fun u v hv => ?_⟩
    exact h (37 :: x :: y :: u) v (by rw [hv]; rfl)
  · rintro ⟨x, y, w', rfl, hx, hy, h⟩ u v hv
    cases u with
    | nil => exact ⟨x, y, w', ((List.cons.inj hv).2).symm, hx, hy⟩
    | cons d u =>
      have hrest := (escapesWhole_cons (hne hx) _).mpr ((escapesWhole_cons (hne hy) _).mpr h)
      exact hrest u v (List.cons.inj hv).2

/-- **The texts that can be decoded.** -/
theorem decode_isSome_iff : ∀ t : List UInt8, (decode t).isSome ↔ EscapesWhole t
  | [] => iff_of_true rfl escapesWhole_nil
  | c :: t => by
    have ih := decode_isSome_iff t
    by_cases h43 : c = 43
    · rw [h43, decode_plus, Option.isSome_map, escapesWhole_cons (by decide), ih]
    by_cases h37 : c = 37
    · rw [h37, escapesWhole_escape]
      match t with
      | [] => simp [decode]
      | [x] => simp [decode]
      | x :: y :: t' =>
        have ih' := decode_isSome_iff t'
        rw [decode_escape]
        cases hx : hexValue x with
        | none => simp [hx]
        | some a =>
          cases hy : hexValue y with
          | none => simp [hy]
          | some b => simp [hx, hy, ih']
    · rw [decode_plain t h43 h37, Option.isSome_map, escapesWhole_cons h37, ih]

/-! ### Truncated text -/

/-- The text stops before the escape it is in is complete. -/
def EndsInEscape (t : List UInt8) : Prop := ∃ u, t = u ++ [37] ∨ ∃ x, t = u ++ [37, x]

theorem not_endsInEscape_nil : ¬ EndsInEscape [] := by
  rintro ⟨u, h | ⟨x, h⟩⟩ <;> simp at h

/-- Whether a text ends in an escape is decided behind its first byte, if that is not a `%`. -/
theorem endsInEscape_cons {c : UInt8} (hc : c ≠ 37) (t : List UInt8) :
    EndsInEscape (c :: t) ↔ EndsInEscape t := by
  constructor
  · rintro ⟨u, h | ⟨x, h⟩⟩
    · cases u with
      | nil => simp only [List.nil_append, List.cons.injEq] at h; exact absurd h.1 hc
      | cons d u => exact ⟨u, .inl (List.cons.inj h).2⟩
    · cases u with
      | nil => simp only [List.nil_append, List.cons.injEq] at h; exact absurd h.1 hc
      | cons d u => exact ⟨u, .inr ⟨x, (List.cons.inj h).2⟩⟩
  · rintro ⟨u, rfl | ⟨x, rfl⟩⟩
    · exact ⟨c :: u, .inl rfl⟩
    · exact ⟨c :: u, .inr ⟨x, rfl⟩⟩

theorem endsInEscape_escape {x y : UInt8} (hx : x ≠ 37) (hy : y ≠ 37) (t : List UInt8) :
    EndsInEscape (37 :: x :: y :: t) ↔ EndsInEscape t := by
  rw [← endsInEscape_cons hy t, ← endsInEscape_cons hx (y :: t)]
  constructor
  · rintro ⟨u, h | ⟨z, h⟩⟩
    · cases u with
      | nil => simp at h
      | cons d u => exact ⟨u, .inl (List.cons.inj h).2⟩
    · cases u with
      | nil => simp at h
      | cons d u => exact ⟨u, .inr ⟨z, (List.cons.inj h).2⟩⟩
  · rintro ⟨u, h | ⟨z, h⟩⟩
    · exact ⟨37 :: u, .inl (by rw [h]; rfl)⟩
    · exact ⟨37 :: u, .inr ⟨z, by rw [h]; rfl⟩⟩

/-- **Prefixes of encoded text**: a prefix is either cut inside an escape, and then not decodable,
or an encoding of a prefix, which is proper if the text's prefix is. -/
theorem decode_prefix {t s : List UInt8} (h : Encodes t s) :
    ∀ {t' : List UInt8}, t' <+: t →
      (EndsInEscape t' ∧ decode t' = none) ∨
      (¬ EndsInEscape t' ∧ ∃ s', Encodes t' s' ∧ s'.length ≤ s.length ∧
        (t' ≠ t → s'.length < s.length)) := by
  -- the first item of `t` is the first item of `t'`, unless `t'` stops inside it
  have lift : ∀ (pre : List UInt8) {t₀ t'₀ s₀ : List UInt8} {b : UInt8},
      (∀ {u v}, Encodes u v → Encodes (pre ++ u) (b :: v)) →
      (EndsInEscape (pre ++ t'₀) ↔ EndsInEscape t'₀) →
      (decode t'₀ = none → decode (pre ++ t'₀) = none) →
      ((EndsInEscape t'₀ ∧ decode t'₀ = none) ∨ (¬ EndsInEscape t'₀ ∧ ∃ s', Encodes t'₀ s' ∧
        s'.length ≤ s₀.length ∧ (t'₀ ≠ t₀ → s'.length < s₀.length))) →
      ((EndsInEscape (pre ++ t'₀) ∧ decode (pre ++ t'₀) = none) ∨ (¬ EndsInEscape (pre ++ t'₀) ∧
        ∃ s', Encodes (pre ++ t'₀) s' ∧ s'.length ≤ (b :: s₀).length ∧
          (pre ++ t'₀ ≠ pre ++ t₀ → s'.length < (b :: s₀).length))) := by
    rintro pre t₀ t'₀ s₀ b henc hends hdec (⟨h1, h2⟩ | ⟨h1, s', h2, h3, h4⟩)
    · exact .inl ⟨hends.mpr h1, hdec h2⟩
    · refine .inr ⟨fun h => h1 (hends.mp h), b :: s', henc h2, ?_, fun hne => ?_⟩
      · simpa using h3
      · have : t'₀ ≠ t₀ := fun e => hne (by rw [e])
        simpa using h4 this
  induction h with
  | nil =>
    intro t' ht'
    rw [List.prefix_nil] at ht'
    subst ht'
    exact .inr ⟨not_endsInEscape_nil, [], .nil, Nat.le_refl _, fun h => absurd rfl h⟩
  | @plain c t s hc _ ih =>
    intro t' ht'
    cases t' with
    | nil => exact .inr ⟨not_endsInEscape_nil, [], .nil, by simp, fun _ => by simp⟩
    | cons d t' =>
      obtain ⟨rfl, hpre⟩ := List.cons_prefix_cons.mp ht'
      refine lift [d] (fun h => .plain hc h) (endsInEscape_cons hc.2.2 t') (fun h => ?_)
        (ih hpre)
      change decode (d :: t') = none
      rw [decode_plain _ hc.2.1 hc.2.2, h]; rfl
  | @plus t s _ ih =>
    intro t' ht'
    cases t' with
    | nil => exact .inr ⟨not_endsInEscape_nil, [], .nil, by simp, fun _ => by simp⟩
    | cons d t' =>
      obtain ⟨rfl, hpre⟩ := List.cons_prefix_cons.mp ht'
      refine lift [43] (fun h => .plus h) (endsInEscape_cons (by decide) t') (fun h => ?_)
        (ih hpre)
      change decode (43 :: t') = none
      rw [decode_plus, h]; rfl
  | @escape x y a b t s hx hy _ ih =>
    intro t' ht'
    match t', ht' with
    | [], _ => exact .inr ⟨not_endsInEscape_nil, [], .nil, by simp, fun _ => by simp⟩
    | [d], ht' =>
      obtain ⟨rfl, _⟩ := List.cons_prefix_cons.mp ht'
      exact .inl ⟨⟨[], .inl rfl⟩, rfl⟩
    | [d, e], ht' =>
      obtain ⟨rfl, _⟩ := List.cons_prefix_cons.mp ht'
      exact .inl ⟨⟨[], .inr ⟨e, rfl⟩⟩, rfl⟩
    | d :: e :: f :: t', ht' =>
      simp only [List.cons_prefix_cons] at ht'
      obtain ⟨rfl, rfl, rfl, hpre⟩ := ht'
      refine lift [37, e, f] (fun h => .escape hx hy h)
        (endsInEscape_escape (hexValue_plain hx).2.2 (hexValue_plain hy).2.2 t') (fun h => ?_)
        (ih hpre)
      change decode (37 :: e :: f :: t') = none
      rw [decode_escape, hx, hy, h]; rfl

end FormCoding
