import Mathlib.Data.List.Basic
import Mathlib.Data.List.Infix
import Mathlib.Data.List.Nodup
import Mathlib.Tactic.Common

/-!
# Trees listed in preorder

A tree is given by the names of the children of each node, and a node by the names on the way to
it.  `nodes` lists a subtree, every node before its children; the listing has every node once
(`mem_nodes`, `nodup_nodes`), its parent somewhere in front of it (`parent_mem`).
-/

namespace Preorder

variable {α : Type} {children : List α → List α} {depth : Nat} {d p : List α}

/-- The nodes at and below `d`, down to `depth`. -/
def nodes (children : List α → List α) : Nat → List α → List (List α)
  | 0, _ => []
  | depth + 1, d => d :: (children d).flatMap fun a => nodes children depth (d ++ [a])

/-- Nothing below `d` is deeper than `depth`. -/
def Within (children : List α → List α) : Nat → List α → Prop
  | 0, _ => False
  | depth + 1, d => ∀ a ∈ children d, Within children depth (d ++ [a])

/-- `p` is a node: every name in it is that of a child. -/
def IsNode (children : List α → List α) (p : List α) : Prop :=
  ∀ q a, q ++ [a] <+: p → a ∈ children q

theorem isNode_nil : IsNode children [] := by
  intro q a h
  have := List.prefix_nil.mp h
  simp at this

theorem isNode_snoc {a : α} : IsNode children (p ++ [a]) ↔ IsNode children p ∧ a ∈ children p := by
  constructor
  · intro h
    exact ⟨fun q b hq => h q b (hq.trans (List.prefix_append _ _)), h p a List.prefix_rfl⟩
  · rintro ⟨hp, ha⟩ q b hq
    rcases List.prefix_concat_iff.mp hq with heq | hq
    · obtain ⟨rfl, hb⟩ := List.append_inj' heq rfl
      obtain rfl := List.singleton_injective hb
      exact ha
    · exact hp q b hq

theorem prefix_of_mem_nodes (h : p ∈ nodes children depth d) : d <+: p := by
  induction depth generalizing d with
  | zero => exact absurd h List.not_mem_nil
  | succ depth ih =>
    rcases List.mem_cons.mp h with rfl | h
    · exact List.prefix_rfl
    · obtain ⟨a, -, h⟩ := List.mem_flatMap.mp h
      exact (List.prefix_append d [a]).trans (ih h)

theorem isNode_of_mem_nodes (hd : IsNode children d) (h : p ∈ nodes children depth d) :
    IsNode children p := by
  induction depth generalizing d with
  | zero => exact absurd h List.not_mem_nil
  | succ depth ih =>
    rcases List.mem_cons.mp h with rfl | h
    · exact hd
    · obtain ⟨a, ha, h⟩ := List.mem_flatMap.mp h
      exact ih (isNode_snoc.mpr ⟨hd, ha⟩) h

/-- **The listing has all nodes below `d`.** -/
theorem mem_nodes (hwithin : Within children depth d) (hd : IsNode children d) :
    p ∈ nodes children depth d ↔ d <+: p ∧ IsNode children p := by
  constructor
  · exact fun h => ⟨prefix_of_mem_nodes h, isNode_of_mem_nodes hd h⟩
  · rintro ⟨⟨r, rfl⟩, hp⟩
    clear hd
    induction depth generalizing d r with
    | zero => exact hwithin.elim
    | succ depth ih =>
      cases r with
      | nil =>
        rw [List.append_nil]
        exact List.mem_cons_self
      | cons a r =>
        have hsplit : d ++ a :: r = d ++ [a] ++ r := by simp
        rw [hsplit] at hp ⊢
        have ha : a ∈ children d := hp d a (List.prefix_append _ _)
        exact List.mem_cons_of_mem _ (List.mem_flatMap.mpr ⟨a, ha, ih (hwithin a ha) r hp⟩)

theorem nodup_nodes (hchildren : ∀ d, (children d).Nodup) : (nodes children depth d).Nodup := by
  induction depth generalizing d with
  | zero => exact List.nodup_nil
  | succ depth ih =>
    refine List.nodup_cons.mpr ⟨fun h => ?_, ?_⟩
    · obtain ⟨a, -, h⟩ := List.mem_flatMap.mp h
      have hle := (prefix_of_mem_nodes h).length_le
      rw [List.length_append] at hle
      exact absurd hle (Nat.not_succ_le_self _)
    · refine List.nodup_flatMap.mpr ⟨fun a _ => ih, ?_⟩
      refine (hchildren d).imp ?_
      intro a b hne p ha hb
      obtain ⟨r, rfl⟩ := prefix_of_mem_nodes ha
      obtain ⟨r', hr⟩ := prefix_of_mem_nodes hb
      rw [List.append_assoc, List.append_assoc] at hr
      exact hne (List.cons.inj (List.append_cancel_left hr)).1.symm

/-! ### Parents come first -/

/-- Every node in the list has its parent in front of it, or in `seen`. -/
def ParentsFirst : List (List α) → List (List α) → Prop
  | _, [] => True
  | seen, p :: ps => p.dropLast ∈ seen ∧ ParentsFirst (p :: seen) ps

theorem ParentsFirst.mono {seen seen' ps : List (List α)} (h : ParentsFirst seen ps)
    (hseen : seen ⊆ seen') : ParentsFirst seen' ps := by
  induction ps generalizing seen seen' with
  | nil => trivial
  | cons p ps ih => exact ⟨hseen h.1, ih h.2 (List.cons_subset_cons p hseen)⟩

theorem ParentsFirst.append {seen ps ps' : List (List α)} (h : ParentsFirst seen ps)
    (h' : ParentsFirst seen ps') : ParentsFirst seen (ps ++ ps') := by
  induction ps generalizing seen with
  | nil => exact h'
  | cons p ps ih => exact ⟨h.1, ih h.2 (h'.mono (List.subset_cons_self p seen))⟩

theorem parentsFirst_nodes {seen : List (List α)} (hd : d.dropLast ∈ seen) :
    ParentsFirst seen (nodes children depth d) := by
  induction depth generalizing d seen with
  | zero => trivial
  | succ depth ih =>
    refine ⟨hd, ?_⟩
    induction children d with
    | nil => trivial
    | cons a as ih' =>
      rw [List.flatMap_cons]
      refine ParentsFirst.append (ih ?_) ih'
      rw [List.dropLast_concat]
      exact List.mem_cons_self

theorem ParentsFirst.parent_mem {seen ps ps' : List (List α)}
    (h : ParentsFirst seen (ps ++ p :: ps')) : p.dropLast ∈ ps ∨ p.dropLast ∈ seen := by
  induction ps generalizing seen with
  | nil => exact .inr h.1
  | cons q ps ih =>
    rcases ih h.2 with hm | hm
    · exact .inl (List.mem_cons_of_mem q hm)
    · rcases List.mem_cons.mp hm with rfl | hm
      · exact .inl List.mem_cons_self
      · exact .inr hm

/-- **The parent of a node is listed in front of it.** -/
theorem parent_mem {ps ps' : List (List α)} (h : nodes children depth [] = ps ++ p :: ps')
    (hp : p ≠ []) : p.dropLast ∈ ps := by
  have hfirst : ParentsFirst [[]] (ps ++ p :: ps') :=
    h ▸ parentsFirst_nodes (List.mem_singleton_self _)
  rcases hfirst.parent_mem with hm | hm
  · exact hm
  · rw [List.mem_singleton.mp hm]
    cases depth with
    | zero => simp [nodes] at h
    | succ depth =>
      cases ps with
      | nil => exact absurd (List.cons.inj h).1.symm hp
      | cons q ps =>
        rw [← (List.cons.inj h).1]
        exact List.mem_cons_self

/-! ### Blocks -/

/-- An item of a list of blocks is in one of them. -/
theorem flatMap_split {β γ : Type} {f : β → List γ} {l : List β} {pre post : List γ} {x : γ}
    (h : l.flatMap f = pre ++ x :: post) : ∃ ds d ds' b b', l = ds ++ d :: ds' ∧
      f d = b ++ x :: b' ∧ pre = ds.flatMap f ++ b := by
  induction l generalizing pre with
  | nil => simp at h
  | cons d l ih =>
    rw [List.flatMap_cons] at h
    -- the block ends in front of the item, or behind it
    rcases List.append_eq_append_iff.mp h with ⟨c, rfl, hc⟩ | ⟨c, hd, hc⟩
    · obtain ⟨ds, d', ds', b, b', rfl, hb, rfl⟩ := ih hc
      exact ⟨d :: ds, d', ds', b, b', rfl, hb, by simp⟩
    · cases c with
      | nil =>
        rw [List.nil_append] at hc
        obtain ⟨ds, d', ds', b, b', rfl, hb, hpre⟩ := @ih [] hc.symm
        refine ⟨d :: ds, d', ds', b, b', rfl, hb, ?_⟩
        rw [List.flatMap_cons, List.append_assoc, ← hpre, hd]
        simp
      | cons y c =>
        obtain ⟨rfl, -⟩ := List.cons.inj hc
        exact ⟨[], d, l, pre, c, rfl, hd, by simp⟩

end Preorder
