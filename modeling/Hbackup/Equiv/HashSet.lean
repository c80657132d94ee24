import Hbackup.HashSet

/-!
# The hash table is a set

A table is in good order (`Wf`) if the chain of every bucket is made of the nodes with hashes of that
bucket, and no hash is in two nodes.  Such a table stands for the set of its hashes (`contents`):
`has` and `insert` are those of this set (`has_eq`, `insert_eq`), and so a table that has been made by
insertions has what has been inserted, and nothing else (`insertAll_is_set`).  What `stats` counts
depends on the contents only (`stats_eq`), and the destructor frees every node once (`delete_eq`).
-/

namespace Hbackup

namespace HashTable

open Chains

variable {t : HashTable}

/-! ### Tables in good order -/

/-- The nodes with hashes of the bucket `n`. -/
def InBucket (t : HashTable) (n : Fin HASHTABLE_SIZE) (q : Nat) : Prop :=
  ∃ c, t.heap[q]? = some c ∧ hash c.val = n

structure Wf (t : HashTable) : Prop where
  chain : ∀ n, ∃ ps, Chain t.heap (t.nodes n) ps ∧ ∀ q, q ∈ ps ↔ t.InBucket n q
  once : (t.heap.map Cell.val).Nodup

/-- The set that a table stands for; what has been inserted last is in front. -/
def contents (t : HashTable) : HashSet := (t.heap.map Cell.val).reverse

theorem mem_contents {h : Hash} : h ∈ t.contents ↔ ∃ (q : Nat) (c : Cell Hash), t.heap[q]? = some c ∧ c.val = h := by
  unfold contents
  rw [List.mem_reverse, List.mem_map]
  constructor
  · rintro ⟨c, hc, hval⟩
    obtain ⟨q, hq⟩ := List.mem_iff_getElem?.mp hc
    exact ⟨q, c, hq, hval⟩
  · rintro ⟨q, c, hq, hval⟩
    exact ⟨c, List.mem_of_getElem? hq, hval⟩

theorem Wf.nodup_contents (hw : t.Wf) : t.contents.Nodup := List.nodup_reverse.mpr hw.once

theorem wf_new : new.Wf :=
  ⟨fun _ => ⟨[], .nil, fun q => by simp [InBucket, new]⟩, List.nodup_nil⟩

/-! ### Looking for a hash -/

/-- **A hash is found in its bucket**, if it is in the table at all. -/
theorem find_eq (hw : t.Wf) (h : Hash) : ∃ r, t.find h = some r ∧ (r.isSome ↔ h ∈ t.contents) := by
  obtain ⟨ps, hchain, hmem⟩ := hw.chain (hash h)
  refine ⟨_, search_eq _ hchain (Nat.lt_succ_of_le hchain.length_le), ?_⟩
  rw [List.find?_isSome, mem_contents]
  constructor
  · rintro ⟨q, hq, hfound⟩
    obtain ⟨c, hc, hval⟩ := cellHas_iff.mp hfound
    exact ⟨q, c, hc, of_decide_eq_true hval⟩
  · rintro ⟨q, c, hc, rfl⟩
    exact ⟨q, (hmem q).mpr ⟨c, hc, rfl⟩, cellHas_iff.mpr ⟨c, hc, decide_eq_true rfl⟩⟩

/-- `has` is that of the set. -/
theorem has_eq (hw : t.Wf) (h : Hash) : t.has h = some (t.contents.has h) := by
  obtain ⟨r, hr, hmem⟩ := find_eq hw h
  rw [has, hr, Option.map_some, Option.some.injEq, Bool.eq_iff_iff, hmem, HashSet.has_iff]

/-! ### Inserting a hash -/

/-- The table with a new node. -/
def push (t : HashTable) (h : Hash) : HashTable where
  heap := t.heap ++ [⟨t.nodes (hash h), h⟩]
  nodes := Function.update t.nodes (hash h) (some t.heap.length)

theorem contents_push (t : HashTable) (h : Hash) : (t.push h).contents = h :: t.contents := by
  simp [contents, push]

/-- The new node is in the bucket of its hash. -/
theorem inBucket_push {h : Hash} {n : Fin HASHTABLE_SIZE} {q : Nat} :
    (t.push h).InBucket n q ↔ t.InBucket n q ∨ q = t.heap.length ∧ hash h = n := by
  unfold InBucket
  have hheap : (t.push h).heap = t.heap ++ [⟨t.nodes (hash h), h⟩] := rfl
  rw [hheap]
  rcases Nat.lt_trichotomy q t.heap.length with hlt | rfl | hgt
  · have hne := Nat.ne_of_lt hlt
    rw [List.getElem?_append_left hlt]
    simp [hne]
  · simp
  · have hne := Nat.ne_of_gt hgt
    have hnone : t.heap[q]? = none := List.getElem?_eq_none hgt.le
    have hnone' : (t.heap ++ [⟨t.nodes (hash h), h⟩])[q]? = none :=
      List.getElem?_eq_none (by rw [List.length_append]; exact hgt)
    rw [hnone, hnone']
    simp [hne]

theorem wf_push (hw : t.Wf) {h : Hash} (hnew : h ∉ t.contents) : (t.push h).Wf := by
  constructor
  · intro n
    obtain ⟨ps, hchain, hmem⟩ := hw.chain n
    by_cases hn : hash h = n
    · -- the bucket of the hash: the node is in front
      subst hn
      refine ⟨t.heap.length :: ps, ?_, fun q => ?_⟩
      · have hhead : (t.push h).nodes (hash h) = some t.heap.length := Function.update_self ..
        rw [hhead]
        exact hchain.push h
      · rw [inBucket_push, ← hmem, List.mem_cons]
        tauto
    · refine ⟨ps, ?_, fun q => ?_⟩
      · have hsame : (t.push h).nodes n = t.nodes n := Function.update_of_ne (Ne.symm hn) ..
        rw [hsame]
        exact hchain.snoc _
      · rw [inBucket_push, ← hmem]
        tauto
  · rw [← List.nodup_reverse]
    change (t.push h).contents.Nodup
    rw [contents_push]
    exact List.nodup_cons.mpr ⟨hnew, hw.nodup_contents⟩

/-- `insert` is that of the set, and leaves the table in good order. -/
theorem insert_eq (hw : t.Wf) (h : Hash) :
    ∃ t', t.insert h = some t' ∧ t'.Wf ∧ t'.contents = t.contents.insert h := by
  obtain ⟨r, hr, hmem⟩ := find_eq hw h
  rw [insert, hr, HashSet.insert]
  cases r with
  | some q =>
    have hin : h ∈ t.contents := hmem.mp rfl
    exact ⟨t, rfl, hw, by rw [if_pos hin]⟩
  | none =>
    have hnew : h ∉ t.contents := fun hin => absurd (hmem.mpr hin) (by simp)
    refine ⟨t.push h, rfl, wf_push hw hnew, ?_⟩
    rw [if_neg hnew, contents_push]

/-- **Insertions keep the table in good order**, and put the hashes into the set. -/
theorem foldlM_insert (hw : t.Wf) (hs : List Hash) :
    ∃ t', hs.foldlM insert t = some t' ∧ t'.Wf ∧ t'.contents = hs.foldl HashSet.insert t.contents := by
  induction hs generalizing t with
  | nil => exact ⟨t, rfl, hw, rfl⟩
  | cons h hs ih =>
    obtain ⟨t₁, ht₁, hw₁, hcontents⟩ := insert_eq hw h
    obtain ⟨t', ht', hw', hcontents'⟩ := ih hw₁
    refine ⟨t', ?_, hw', ?_⟩
    · rw [List.foldlM_cons, ht₁]
      exact ht'
    · rw [hcontents', hcontents, List.foldl_cons]

theorem mem_foldl_insert {s : HashSet} {hs : List Hash} {h : Hash} :
    h ∈ hs.foldl HashSet.insert s ↔ h ∈ s ∨ h ∈ hs := by
  induction hs generalizing s with
  | nil => simp
  | cons h' hs ih =>
    rw [List.foldl_cons, ih, HashSet.mem_insert, List.mem_cons]
    tauto

/-! ### Counting nodes -/

/-- The number of hashes of a bucket. -/
def load (s : HashSet) (n : Fin HASHTABLE_SIZE) : Nat := s.countP fun h => hash h = n

/-- A chain has a node for every hash of its bucket. -/
theorem length_chain (hw : t.Wf) {n : Fin HASHTABLE_SIZE} {ps : List Nat}
    (h : Chain t.heap (t.nodes n) ps) : ps.length = load t.contents n := by
  obtain ⟨qs, hqs, hmem⟩ := hw.chain n
  obtain rfl := hqs.unique h
  have hperm : qs.Perm ((List.range t.heap.length).filter (CellHas t.heap fun h => hash h = n)) := by
    rw [List.perm_ext_iff_of_nodup h.nodup (List.nodup_range.filter _)]
    intro q
    rw [hmem q, List.mem_filter, List.mem_range, cellHas_iff]
    constructor
    · rintro ⟨c, hc, hn⟩
      exact ⟨(List.getElem?_eq_some_iff.mp hc).1, c, hc, decide_eq_true hn⟩
    · rintro ⟨-, c, hc, hn⟩
      exact ⟨c, hc, of_decide_eq_true hn⟩
  rw [hperm.length_eq, ← List.countP_eq_length_filter, countP_cellHas, load, contents, List.countP_reverse]

theorem load_cons (h : Hash) (s : HashSet) (n : Fin HASHTABLE_SIZE) :
    load (h :: s) n = load s n + if hash h = n then 1 else 0 := by
  simp [load, List.countP_cons]

/-- One more hash, in some different buckets. -/
theorem sum_load_cons (h : Hash) (s : HashSet) {ns : List (Fin HASHTABLE_SIZE)} (hnodup : ns.Nodup) :
    (ns.map (load (h :: s))).sum = (ns.map (load s)).sum + if hash h ∈ ns then 1 else 0 := by
  induction ns with
  | nil => rfl
  | cons n ns ih =>
    obtain ⟨hnot, hnodup⟩ := List.nodup_cons.mp hnodup
    rw [List.map_cons, List.map_cons, List.sum_cons, List.sum_cons, load_cons, ih hnodup]
    by_cases hn : hash h = n
    · subst hn
      rw [if_pos rfl, if_neg hnot, if_pos List.mem_cons_self]
      omega
    · have hmem : hash h ∈ n :: ns ↔ hash h ∈ ns := List.mem_cons.trans (or_iff_right hn)
      rw [if_neg hn, if_congr hmem rfl rfl]
      omega

/-- The buckets hold all hashes. -/
theorem sum_load (s : HashSet) : ((List.finRange HASHTABLE_SIZE).map (load s)).sum = s.length := by
  induction s with
  | nil =>
    have hzero : ∀ ns : List (Fin HASHTABLE_SIZE), (ns.map (load [])).sum = 0 := by
      intro ns
      induction ns with
      | nil => rfl
      | cons n ns ih =>
        rw [List.map_cons, List.sum_cons, ih]
        rfl
    exact hzero _
  | cons h s ih =>
    rw [sum_load_cons h s (List.nodup_finRange _), ih, if_pos (List.mem_finRange _), List.length_cons]

/-- What `stats` counts, with one more chain. -/
def Stats.add (s : Stats) (k : Nat) : Stats where
  nnodes := s.nnodes + k
  maxchain := max s.maxchain k
  nonemptybuckets := s.nonemptybuckets + if 0 < k then 1 else 0

theorem statsTurn_eq (hw : t.Wf) (s : Stats) (n : Fin HASHTABLE_SIZE) :
    t.statsTurn s n = some (s.add (load t.contents n)) := by
  obtain ⟨ps, hchain, -⟩ := hw.chain n
  have hlength := length_chain hw hchain
  have hcount := chainLength_eq hchain (Nat.lt_succ_of_le hchain.length_le)
  rw [statsTurn]
  cases hnode : t.nodes n with
  | none =>
    rw [hnode] at hchain
    cases hchain
    rw [← hlength]
    simp [Stats.add]
  | some np =>
    rw [hnode] at hchain hcount
    have hpos : 0 < ps.length := by
      cases hchain
      exact Nat.succ_pos _
    show (chainLength t.heap (t.heap.length + 1) (some np) >>= _) = _
    rw [hcount, ← hlength]
    simp only [Stats.add, hpos, if_true]
    show some _ = some _
    congr 2
    split <;> omega

/-- What is counted of a set: the number of its hashes, of those in the fullest bucket, and of the
buckets that are not empty. -/
def statsOf (s : HashSet) : Stats where
  nnodes := s.length
  maxchain := ((List.finRange HASHTABLE_SIZE).map (load s)).foldl max 0
  nonemptybuckets := (List.finRange HASHTABLE_SIZE).countP fun n => 0 < load s n

theorem foldlM_statsTurn (hw : t.Wf) (ns : List (Fin HASHTABLE_SIZE)) (s : Stats) :
    ns.foldlM t.statsTurn s = some {
      nnodes := s.nnodes + (ns.map (load t.contents)).sum
      maxchain := (ns.map (load t.contents)).foldl max s.maxchain
      nonemptybuckets := s.nonemptybuckets + ns.countP fun n => 0 < load t.contents n } := by
  induction ns generalizing s with
  | nil => rfl
  | cons n ns ih =>
    rw [List.foldlM_cons, statsTurn_eq hw]
    show ns.foldlM t.statsTurn _ = _
    rw [ih, List.countP_cons, List.map_cons, List.sum_cons, List.foldl_cons]
    simp only [Stats.add, Option.some.injEq, Stats.mk.injEq, decide_eq_true_eq, true_and]
    omega

/-- **What `stats` counts** depends on the contents only. -/
theorem stats_eq (hw : t.Wf) : t.stats = some (statsOf t.contents) := by
  rw [stats, foldlM_statsTurn hw, sum_load, Nat.zero_add, Nat.zero_add]
  rfl

/-! ### The destructor -/

/-- **Every node is freed, and none twice.** -/
theorem delete_eq (hw : t.Wf) : ∃ l, t.delete = some l ∧ l.Perm (List.range t.heap.length) := by
  choose ps hchain hmem using hw.chain
  have haddresses : ∀ n, addresses t.heap (t.heap.length + 1) (t.nodes n) = some (ps n) := fun n =>
    addresses_eq (hchain n) (Nat.lt_succ_of_le (hchain n).length_le)
  have hall : ((List.finRange HASHTABLE_SIZE).mapM fun n =>
      addresses t.heap (t.heap.length + 1) (t.nodes n)) =
        some ((List.finRange HASHTABLE_SIZE).map ps) := by
    rw [funext haddresses]
    exact List.mapM_pure
  refine ⟨((List.finRange HASHTABLE_SIZE).map ps).flatten, ?_, ?_⟩
  · rw [delete, hall]
    rfl
  · rw [List.perm_ext_iff_of_nodup _ List.nodup_range]
    · intro q
      rw [List.mem_flatten, List.mem_range]
      constructor
      · rintro ⟨l, hl, hq⟩
        obtain ⟨n, -, rfl⟩ := List.mem_map.mp hl
        exact (hchain n).lt hq
      · intro hlt
        have hcell : t.InBucket (hash t.heap[q].val) q :=
          ⟨t.heap[q], List.getElem?_eq_getElem hlt, rfl⟩
        exact ⟨_, List.mem_map_of_mem (List.mem_finRange _), (hmem _ q).mpr hcell⟩
    · -- a node has one hash, and that is in one bucket
      rw [← List.flatMap_def, List.nodup_flatMap]
      refine ⟨fun n _ => (hchain n).nodup, ?_⟩
      apply (List.nodup_finRange _).imp
      intro n n' hne q hq hq'
      obtain ⟨c, hc, rfl⟩ := (hmem n q).mp hq
      obtain ⟨c', hc', rfl⟩ := (hmem n' q).mp hq'
      rw [hc] at hc'
      cases hc'
      exact hne rfl

/-! ### Sequences of insertions -/

/-- The table has what is in `hs`: its chains are finite and without cycles, they are made of nodes of
their own bucket, every node is in the chain of its bucket, and every hash is in one node. -/
structure IsSet (t : HashTable) (hs : List Hash) : Prop where
  has : ∀ h, t.has h = some (decide (h ∈ hs))
  chain : ∀ n, ∃ ps, Chain t.heap (t.nodes n) ps ∧ ps.Nodup ∧ ∀ q ∈ ps, t.InBucket n q
  own : ∀ n q, t.InBucket n q → ∃ ps, Chain t.heap (t.nodes n) ps ∧ q ∈ ps
  once : (t.heap.map Cell.val).Nodup
  stored : ∀ h, h ∈ t.heap.map Cell.val ↔ h ∈ hs

theorem Wf.isSet (hw : t.Wf) {hs : List Hash} (hmem : ∀ h, h ∈ t.contents ↔ h ∈ hs) : t.IsSet hs where
  has h := by
    rw [has_eq hw, Option.some.injEq, Bool.eq_iff_iff, HashSet.has_iff, hmem, decide_eq_true_iff]
  chain n := by
    obtain ⟨ps, hchain, hin⟩ := hw.chain n
    exact ⟨ps, hchain, hchain.nodup, fun q hq => (hin q).mp hq⟩
  own n q hq := by
    obtain ⟨ps, hchain, hin⟩ := hw.chain n
    exact ⟨ps, hchain, (hin q).mpr hq⟩
  once := hw.once
  stored h := by
    rw [← hmem, contents, List.mem_reverse]

/-- The number of different hashes. -/
theorem length_dedup_congr {hs hs' : List Hash} (h : ∀ a, a ∈ hs ↔ a ∈ hs') :
    hs.dedup.length = hs'.dedup.length := by
  apply List.Perm.length_eq
  rw [List.perm_ext_iff_of_nodup (List.nodup_dedup _) (List.nodup_dedup _)]
  intro a
  rw [List.mem_dedup, List.mem_dedup, h]

/-- What comes of a sequence of insertions. -/
theorem insertAll_spec (hs : List Hash) :
    ∃ t s, insertAll hs = some t ∧ t.stats = some s ∧ t.IsSet hs ∧ s.nnodes = hs.dedup.length := by
  obtain ⟨t, ht, hw, hcontents⟩ := foldlM_insert wf_new hs
  have hmem : ∀ h, h ∈ t.contents ↔ h ∈ hs := by
    intro h
    rw [hcontents, mem_foldl_insert]
    exact or_iff_right List.not_mem_nil
  refine ⟨t, statsOf t.contents, ht, stats_eq hw, hw.isSet hmem, ?_⟩
  rw [statsOf, ← hw.nodup_contents.dedup]
  exact length_dedup_congr hmem

/-- **A `HashSet` is a set.**  After any sequence of insertions it has what has been inserted, each hash in
one node, and other sequences with the same hashes cannot be told from it by `has` and by the number of
nodes. -/
theorem insertAll_is_set (hs : List Hash) :
    ∃ t s, insertAll hs = some t ∧ t.stats = some s ∧ t.IsSet hs ∧ s.nnodes = hs.dedup.length ∧
      ∀ hs', (∀ h, h ∈ hs' ↔ h ∈ hs) → ∃ t' s', insertAll hs' = some t' ∧ t'.stats = some s' ∧
        s'.nnodes = s.nnodes ∧ ∀ h, t'.has h = t.has h := by
  obtain ⟨t, s, ht, hs₀, hset, hcount⟩ := insertAll_spec hs
  refine ⟨t, s, ht, hs₀, hset, hcount, fun hs' hsame => ?_⟩
  obtain ⟨t', s', ht', hs₀', hset', hcount'⟩ := insertAll_spec hs'
  refine ⟨t', s', ht', hs₀', ?_, fun h => ?_⟩
  · rw [hcount, hcount']
    exact length_dedup_congr hsame
  · rw [hset'.has, hset.has]
    exact congrArg some (decide_eq_decide.mpr (hsame h))

end HashTable

end Hbackup
