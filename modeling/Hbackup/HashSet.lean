import Mathlib.Logic.Function.Basic
import Hbackup.World
import Hbackup.Lib.Chains

/-!
# The hash table of `HashSet`

`class HashSet` of `hash.cc`: an array of buckets, each with a chain of nodes in the heap.  The commands
are modelled with the set that it stands for, `HashSet`.

A result is `none` if a pointer leads out of the heap, or if a loop is not at its end after as many turns
as there are nodes, and one.
-/

namespace Hbackup

open Chains

/-- `HASHTABLE_SIZE`. -/
def HASHTABLE_SIZE : Nat := 1 <<< 22

/-- A `HashSet`, and the heap with its nodes. -/
structure HashTable where
  heap : Heap Hash
  nodes : Fin HASHTABLE_SIZE → Option Nat

namespace HashTable

/-- `*(const size_t *)h`: eight bytes, the first of which is the lowest. -/
def firstWord (h : Hash) : Nat := (h.bytes.take 8).foldr (fun b n => b.toNat + 256 * n) 0

/-- `hash`. -/
def hash (h : Hash) : Fin HASHTABLE_SIZE :=
  ⟨firstWord h % HASHTABLE_SIZE, Nat.mod_lt _ (by decide)⟩

/-- The constructor. -/
def new : HashTable := ⟨[], fun _ => none⟩

/-- `for(np = nodes[n]; np && memcmp(h, np->h, HASH_SIZE); np = np->next)`. -/
def find (t : HashTable) (h : Hash) : Option (Option Nat) :=
  search t.heap (fun h' => h' = h) (t.heap.length + 1) (t.nodes (hash h))

def insert (t : HashTable) (h : Hash) : Option HashTable :=
  match t.find h with
  | none => none
  | some (some _) => some t
  | some none =>
    -- a new node in front of those of the bucket
    some {
      heap := t.heap ++ [⟨t.nodes (hash h), h⟩]
      nodes := Function.update t.nodes (hash h) (some t.heap.length) }

def has (t : HashTable) (h : Hash) : Option Bool := (t.find h).map Option.isSome

/-- What `stats` counts; it prints these numbers, and the quotient of the first and the last. -/
structure Stats where
  nnodes : Nat := 0
  maxchain : Nat := 0
  nonemptybuckets : Nat := 0

/-- One turn of the loop of `stats`. -/
def statsTurn (t : HashTable) (s : Stats) (n : Fin HASHTABLE_SIZE) : Option Stats :=
  match t.nodes n with
  | none => some s
  | some np => do
    let thischain ← chainLength t.heap (t.heap.length + 1) (some np)
    return {
      nnodes := s.nnodes + thischain
      maxchain := if thischain > s.maxchain then thischain else s.maxchain
      nonemptybuckets := s.nonemptybuckets + 1 }

def stats (t : HashTable) : Option Stats := (List.finRange HASHTABLE_SIZE).foldlM t.statsTurn {}

/-- The destructor: the nodes that it deletes, in this order.  The link of a node is read before the node
is deleted. -/
def delete (t : HashTable) : Option (List Nat) := do
  let chains ← (List.finRange HASHTABLE_SIZE).mapM fun n =>
    addresses t.heap (t.heap.length + 1) (t.nodes n)
  return chains.flatten

/-- A new `HashSet` after some calls of `insert`. -/
def insertAll (hs : List Hash) : Option HashTable := hs.foldlM insert new

end HashTable

end Hbackup
