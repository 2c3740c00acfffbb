import Mathlib.Data.List.TakeWhile
import Petix.Library.ByteMemory
import Petix.Library.Word

/-!
# Hash maps and lists (`kernel/container`)

A map keeps pointers to objects of the caller's, here the objects themselves. `hash`, `cmp` and `free` are given by
the caller; a call of `free` is recorded.
-/

namespace Petix.Kernel.Container
open List Library

inductive Fault where
  | divide
  | endless
  | badEntry
  | noFree
  deriving DecidableEq

inductive Bucket (ε : Type) where
  | empty
  | tombstone
  | full (value : ε)

structure Hashmap (ε : Type) where
  data : Nat → Bucket ε
  entries : Nat
  buckets : Nat
  hash : ε → Nat
  cmp : Bucket ε → ε → Except Fault Int
  free : Bool
  freed : List (Bucket ε)

def minBuckets : Nat := 32

variable {ε κ ν : Type}

def hashmapInit (hash : ε → Nat) (cmp : Bucket ε → ε → Except Fault Int) (free : Bool) : Hashmap ε :=
  ⟨fun _ => .empty, 0, 0, hash, cmp, free, []⟩

/-- The loop of `get_bucket`. After as many steps as there are buckets it is back where it began. -/
def getBucketLoop (m : Hashmap ε) (value : ε) (allowTs : Bool) :
    (fuel index : Nat) → (tsIndex : Option Nat) → Except Fault Nat
  | 0, _, _ => .error .endless
  | fuel + 1, index, tsIndex => match m.data index with
      | .empty => .ok (if allowTs then tsIndex.getD index else index)
      | .tombstone => do
          if (← m.cmp .tombstone value) = 0 then return index
          else getBucketLoop m value allowTs fuel ((index + 1) % m.buckets) (some (tsIndex.getD index))
      | .full e => do
          if (← m.cmp (.full e) value) = 0 then return index
          else getBucketLoop m value allowTs fuel ((index + 1) % m.buckets) tsIndex

def getBucket (m : Hashmap ε) (value : ε) (allowTs : Bool) : Except Fault Nat :=
  if m.buckets = 0 then .error .divide
  else getBucketLoop m value allowTs m.buckets (m.hash value % m.buckets) none

def insertOp (m : Hashmap ε) (value : ε) : Except Fault (Hashmap ε) := do
  let index ← getBucket m value true
  let m := match m.data index with
    | .empty => { m with entries := m.entries + 1 }
    | old => if m.free then { m with freed := m.freed ++ [old] } else m
  return { m with data := Function.update m.data index (.full value) }

def reinsert (oldData : Nat → Bucket ε) (m : Hashmap ε) (i : Nat) : Except Fault (Hashmap ε) :=
  match oldData i with
  | .full value => insertOp m value
  | .empty | .tombstone => .ok m

def rehash (m : Hashmap ε) (newBuckets : Nat) : Except Fault (Hashmap ε) :=
  (range m.buckets).foldlM (reinsert m.data)
    { m with data := fun _ => .empty, buckets := newBuckets, entries := 0 }

def Loaded (m : Hashmap ε) : Prop := m.buckets = 0 ∨ 4 * m.buckets < 5 * m.entries

instance (m : Hashmap ε) : Decidable (Loaded m) := inferInstanceAs (Decidable (_ ∨ _))

def grow (m : Hashmap ε) : Except Fault (Hashmap ε) :=
  if Loaded m then rehash m (if m.buckets = 0 then minBuckets else 2 * m.buckets) else .ok m

def hashmapInsertValue (m : Hashmap ε) (value : ε) : Except Fault (Hashmap ε) := do
  insertOp (← grow m) value

/-- What is compared with `empty` is the address of the bucket, not what is in it. -/
def hashmapDeleteValue (m : Hashmap ε) (value : ε) : Except Fault (Hashmap ε) :=
  if m.buckets = 0 then .ok m
  else do
    let index ← getBucket m value false
    return { m with data := Function.update m.data index .tombstone }

def hashmapHasValue (m : Hashmap ε) (value : ε) : Except Fault Bool :=
  if m.buckets = 0 then .ok false
  else do
    match m.data (← getBucket m value false) with
    | .empty => return false
    | .tombstone | .full _ => return true

def notTombstone : Bucket ε → Option (Bucket ε)
  | .tombstone => none
  | bucket => some bucket

def hashmapFree (m : Hashmap ε) : Hashmap ε :=
  { m with
    data := fun _ => .empty
    entries := 0
    buckets := 0
    freed := m.freed ++ if m.free then (range m.buckets).filterMap (notTombstone ∘ m.data) else [] }

/-! ## Iterators

An iterator is the index of a word from `data` on, and comes with the indices of the words that were read for it.
-/

def Hashmap.word (m : Hashmap ε) (behind : Nat → Bucket ε) (i : Nat) : Bucket ε :=
  if i < m.buckets then m.data i else behind (i - m.buckets)

def realEntry (word : Nat → Bucket ε) : (fuel i : Nat) → Option (Nat × List Nat)
  | 0, _ => none
  | fuel + 1, i => match word i with
    | .full _ => some (i, [i])
    | .empty | .tombstone => (realEntry word fuel (i + 1)).map fun (j, reads) => (j, i :: reads)

def hashmapBegin (m : Hashmap ε) (behind : Nat → Bucket ε) (fuel : Nat) : Option (Nat × List Nat) :=
  if m.buckets = 0 then some (0, []) else realEntry (m.word behind) fuel 0

def hashmapNext (m : Hashmap ε) (behind : Nat → Bucket ε) (fuel iter : Nat) : Option (Nat × List Nat) :=
  realEntry (m.word behind) fuel (iter + 1)

def hashmapEnd (m : Hashmap ε) : Nat := m.buckets

structure HashmapEntry (κ ν : Type) where
  addr : Nat
  key : κ
  value : ν
  deriving DecidableEq

def hashmapInsert (m : Hashmap (HashmapEntry κ ν)) (addr : Nat) (key : κ) (value : ν) :
    Except Fault (Hashmap (HashmapEntry κ ν)) :=
  if m.free then hashmapInsertValue m ⟨addr, key, value⟩ else .error .noFree

def hashmapDelete (null : ν) (m : Hashmap (HashmapEntry κ ν)) (key : κ) : Except Fault (Hashmap (HashmapEntry κ ν)) :=
  hashmapDeleteValue m ⟨0, key, null⟩

def hashmapGet (null : ν) (m : Hashmap (HashmapEntry κ ν)) (key : κ) : Except Fault ν :=
  if m.buckets = 0 then .ok null
  else do
    -- the entry to look for is on the stack
    match m.data (← getBucket m ⟨0, key, null⟩ false) with
    | .empty => return null
    | .tombstone => .error .badEntry
    | .full entry => return entry.value

@[ext]
structure Str where
  chars : List Byte
  terminated : 0 ∉ chars
  deriving DecidableEq

def Str.ofBytes (bytes : List Byte) : Str where
  chars := bytes.takeWhile (· ≠ 0)
  terminated := fun within => by simpa using mem_takeWhile_imp within

def strcmp : (s1 s2 : List Byte) → Int
  | [], [] => 0
  | [], b :: _ => -b.toNat
  | a :: _, [] => a.toNat
  | a :: s1, b :: s2 => if a = b then strcmp s1 s2 else a.toNat - b.toNat

/-- A `char` has a sign, and a `size_t` has 32 bits. -/
def stringValueHash (str : Str) : Nat :=
  str.chars.foldl (fun hash c => ((7 * hash + c.toInt) % 2 ^ 32).toNat) 0

def stringKeyHash (entry : HashmapEntry Str ν) : Nat := stringValueHash entry.key

def stringKeyCmp : Bucket (HashmapEntry Str ν) → HashmapEntry Str ν → Except Fault Int
  | .full a, b => .ok (strcmp a.key.chars b.key.chars)
  | .empty, _ | .tombstone, _ => .error .badEntry

structure Pointer where
  addr : Nat
  real : 1 < addr
  word : addr < 2 ^ 32
  deriving DecidableEq

def bucketAddr : Bucket Pointer → Nat
  | .empty => 0
  | .tombstone => 1
  | .full p => p.addr

def ptrValueHash (ptr : Pointer) : Nat := ptr.addr

def ptrValueCmp (a : Bucket Pointer) (b : Pointer) : Except Fault Int := .ok (signed32 (bucketAddr a - b.addr))

structure ItemList (α : Type) where
  items : List α
  cap : Nat
  fits : items.length ≤ cap

variable {α : Type}

def listInit : ItemList α := ⟨[], 0, Nat.le_refl 0⟩

def listAppend (list : ItemList α) (item : α) : ItemList α where
  items := list.items ++ [item]
  cap := if list.items.length = list.cap then (if list.cap = 0 then 32 else 2 * list.cap) else list.cap
  fits := by
    have := list.fits
    rw [length_append, length_singleton]
    split_ifs <;> omega

def listAt (list : ItemList α) (index : Nat) : Option α := list.items[index]?

end Petix.Kernel.Container
