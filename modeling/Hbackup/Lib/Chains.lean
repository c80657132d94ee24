import Mathlib.Data.List.Basic
import Mathlib.Data.List.Nodup
import Mathlib.Data.List.Perm.Subperm
import Mathlib.Data.List.Range
import Mathlib.Tactic.Common

/-!
# Singly linked chains in a heap

A heap is a list of cells, and an address is a place in it; new cells are put at its end, and none is
changed or freed.  `Chain heap p ps` says that the link `p` leads through the cells at `ps`, in this
order, to the null link.  There is one such list at most (`Chain.unique`), it has no address twice
(`Chain.nodup`), so that a chain is finite and has no cycle, and cells that are made later do not
matter (`Chain.snoc`).

`search` follows a link until a cell satisfies a predicate, and `chainLength` and `addresses` to its end.
They are bounded by a number of turns; the size of the heap is enough (`Chain.length_le`).
-/

namespace Chains

variable {α : Type}

/-- A cell with a link to the next one, or the null link. -/
structure Cell (α : Type) where
  next : Option Nat
  val : α

abbrev Heap (α : Type) := List (Cell α)

/-- The link leads through the cells at these addresses to its end. -/
inductive Chain (heap : Heap α) : Option Nat → List Nat → Prop
  | nil : Chain heap none []
  | cons {p : Nat} {c : Cell α} {ps : List Nat} (hcell : heap[p]? = some c)
      (h : Chain heap c.next ps) : Chain heap (some p) (p :: ps)

variable {heap : Heap α} {p : Option Nat} {ps : List Nat}

/-! ### The shape of a chain -/

theorem Chain.unique {qs : List Nat} (h : Chain heap p ps) (h' : Chain heap p qs) : ps = qs := by
  induction h generalizing qs with
  | nil =>
    cases h'
    rfl
  | cons hcell _ ih =>
    cases h' with
    | cons hcell' h' =>
      rw [hcell] at hcell'
      cases hcell'
      rw [ih h']

/-- Every cell on the way is in the heap. -/
theorem Chain.cell {q : Nat} (h : Chain heap p ps) (hq : q ∈ ps) : ∃ c, heap[q]? = some c := by
  induction h with
  | nil => exact absurd hq List.not_mem_nil
  | cons hcell _ ih =>
    rcases List.mem_cons.mp hq with rfl | hq
    · exact ⟨_, hcell⟩
    · exact ih hq

theorem Chain.lt {q : Nat} (h : Chain heap p ps) (hq : q ∈ ps) : q < heap.length := by
  obtain ⟨c, hc⟩ := h.cell hq
  exact (List.getElem?_eq_some_iff.mp hc).1

/-- From every address of a chain a shorter one goes on. -/
theorem Chain.from_mem {q : Nat} (h : Chain heap p ps) (hq : q ∈ ps) :
    ∃ qs, Chain heap (some q) qs ∧ qs.length ≤ ps.length := by
  induction h with
  | nil => exact absurd hq List.not_mem_nil
  | cons hcell htail ih =>
    rcases List.mem_cons.mp hq with rfl | hq
    · exact ⟨_, .cons hcell htail, le_rfl⟩
    · obtain ⟨qs, hqs, hle⟩ := ih hq
      exact ⟨qs, hqs, hle.trans (Nat.le_succ _)⟩

/-- **Chains have no cycles.** -/
theorem Chain.nodup (h : Chain heap p ps) : ps.Nodup := by
  induction h with
  | nil => exact List.nodup_nil
  | @cons p c ps hcell htail ih =>
    apply List.nodup_cons.mpr ⟨?_, ih⟩
    -- the chain from `p` would be shorter than itself
    intro hmem
    obtain ⟨qs, hqs, hle⟩ := htail.from_mem hmem
    rw [hqs.unique (.cons hcell htail), List.length_cons] at hle
    omega

/-- A chain is no longer than the heap. -/
theorem Chain.length_le (h : Chain heap p ps) : ps.length ≤ heap.length := by
  have hsub : ps ⊆ List.range heap.length := fun q hq => List.mem_range.mpr (h.lt hq)
  have hle := (List.subperm_of_subset h.nodup hsub).length_le
  rwa [List.length_range] at hle

/-- A cell that is made later is not on the way. -/
theorem Chain.snoc (h : Chain heap p ps) (c : Cell α) : Chain (heap ++ [c]) p ps := by
  induction h with
  | nil => exact .nil
  | cons hcell _ ih =>
    have hlt := (List.getElem?_eq_some_iff.mp hcell).1
    exact .cons (by rw [List.getElem?_append_left hlt, hcell]) ih

/-- A cell is made at the head of a chain. -/
theorem Chain.push (h : Chain heap p ps) (a : α) :
    Chain (heap ++ [⟨p, a⟩]) (some heap.length) (heap.length :: ps) :=
  .cons (by rw [List.getElem?_concat_length]) (h.snoc _)

/-! ### Following a chain -/

/-- The first link that leads to a cell with the property, or the null link; `none` if the way is not
at its end after so many turns, or leads out of the heap. -/
def search (heap : Heap α) (found : α → Bool) : Nat → Option Nat → Option (Option Nat)
  | 0, _ => none
  | _ + 1, none => some none
  | turns + 1, some p =>
    match heap[p]? with
    | none => none
    | some c => if found c.val then some (some p) else search heap found turns c.next

/-- The number of cells on the way. -/
def chainLength (heap : Heap α) : Nat → Option Nat → Option Nat
  | 0, _ => none
  | _ + 1, none => some 0
  | turns + 1, some p =>
    match heap[p]? with
    | none => none
    | some c => (chainLength heap turns c.next).map (· + 1)

/-- The addresses of the cells on the way. -/
def addresses (heap : Heap α) : Nat → Option Nat → Option (List Nat)
  | 0, _ => none
  | _ + 1, none => some []
  | turns + 1, some p =>
    match heap[p]? with
    | none => none
    | some c => (addresses heap turns c.next).map (p :: ·)

/-- The cell at the address has the property. -/
def CellHas (heap : Heap α) (found : α → Bool) (q : Nat) : Bool :=
  match heap[q]? with
  | none => false
  | some c => found c.val

theorem cellHas_iff {found : α → Bool} {q : Nat} :
    CellHas heap found q = true ↔ ∃ c, heap[q]? = some c ∧ found c.val = true := by
  unfold CellHas
  cases heap[q]? <;> simp

/-- The cells with the property, counted by their addresses. -/
theorem countP_cellHas (heap : Heap α) (found : α → Bool) :
    (List.range heap.length).countP (CellHas heap found) = (heap.map Cell.val).countP found := by
  induction heap with
  | nil => rfl
  | cons c heap ih =>
    have htail : (CellHas (c :: heap) found ∘ Nat.succ) = CellHas heap found := rfl
    have hhead : CellHas (c :: heap) found 0 = found c.val := rfl
    rw [List.length_cons, List.range_succ_eq_map, List.countP_cons, List.countP_map, htail, ih, hhead,
      List.map_cons, List.countP_cons]

/-- **The first cell with the property is found**, if there is one on the way. -/
theorem search_eq (found : α → Bool) (h : Chain heap p ps) {turns : Nat} (hturns : ps.length < turns) :
    search heap found turns p = some (ps.find? (CellHas heap found)) := by
  induction h generalizing turns with
  | nil =>
    obtain ⟨turns, rfl⟩ := Nat.exists_eq_succ_of_ne_zero (Nat.ne_of_gt hturns)
    rfl
  | @cons p c ps hcell htail ih =>
    rw [List.length_cons] at hturns
    obtain ⟨turns, rfl⟩ := Nat.exists_eq_succ_of_ne_zero (by omega : turns ≠ 0)
    have hat : CellHas heap found p = found c.val := by rw [CellHas, hcell]
    rw [search, hcell, List.find?_cons, hat]
    show (if found c.val then some (some p) else search heap found turns c.next) = _
    cases found c.val with
    | true => rfl
    | false => exact ih (by omega)

theorem chainLength_eq (h : Chain heap p ps) {turns : Nat} (hturns : ps.length < turns) :
    chainLength heap turns p = some ps.length := by
  induction h generalizing turns with
  | nil =>
    obtain ⟨turns, rfl⟩ := Nat.exists_eq_succ_of_ne_zero (Nat.ne_of_gt hturns)
    rfl
  | @cons p c ps hcell htail ih =>
    rw [List.length_cons] at hturns
    obtain ⟨turns, rfl⟩ := Nat.exists_eq_succ_of_ne_zero (by omega : turns ≠ 0)
    rw [chainLength, hcell]
    show (chainLength heap turns c.next).map (· + 1) = _
    rw [ih (by omega)]
    rfl

theorem addresses_eq (h : Chain heap p ps) {turns : Nat} (hturns : ps.length < turns) :
    addresses heap turns p = some ps := by
  induction h generalizing turns with
  | nil =>
    obtain ⟨turns, rfl⟩ := Nat.exists_eq_succ_of_ne_zero (Nat.ne_of_gt hturns)
    rfl
  | @cons p c ps hcell htail ih =>
    rw [List.length_cons] at hturns
    obtain ⟨turns, rfl⟩ := Nat.exists_eq_succ_of_ne_zero (by omega : turns ≠ 0)
    rw [addresses, hcell]
    show (addresses heap turns c.next).map (p :: ·) = _
    rw [ih (by omega)]
    rfl

end Chains
