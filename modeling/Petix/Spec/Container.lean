import Mathlib.Data.List.Basic
import Petix.Kernel.Container
import Petix.Library.Transition

namespace Petix.Spec.Container
open Kernel.Container Library

variable {ε κ ν : Type}

structure EqualKeys (hash : HashmapEntry κ ν → Nat)
    (cmp : Bucket (HashmapEntry κ ν) → HashmapEntry κ ν → Except Fault Int) : Prop where
  hash : ∀ a b, a.key = b.key → hash a = hash b
  cmp : ∀ a b, ∃ c, cmp (.full a) b = .ok c ∧ (c = 0 ↔ a.key = b.key)

def insertAll (hash : HashmapEntry κ ν → Nat)
    (cmp : Bucket (HashmapEntry κ ν) → HashmapEntry κ ν → Except Fault Int) (calls : List (κ × ν)) :
    Except Fault (Hashmap (HashmapEntry κ ν)) :=
  calls.zipIdx.foldlM (fun m (call, addr) => hashmapInsert m addr call.1 call.2) (hashmapInit hash cmp true)

def lastValue [DecidableEq κ] (null : ν) (calls : List (κ × ν)) (k : κ) : ν :=
  ((calls.reverse.find? (·.1 = k)).map Prod.snd).getD null

def Replaced (calls : List (κ × ν)) (e : HashmapEntry κ ν) : Prop :=
  calls[e.addr]? = some (e.key, e.value) ∧ ∃ j v, e.addr < j ∧ calls[j]? = some (e.key, v)

def Latest (calls : List (κ × ν)) (e : HashmapEntry κ ν) : Prop :=
  calls[e.addr]? = some (e.key, e.value) ∧ ∀ j v, calls[j]? = some (e.key, v) → j ≤ e.addr

def visits (m : Hashmap ε) (behind : Nat → Bucket ε) (fuel : Nat) : (rounds iter : Nat) → Option (List Nat × List Nat)
  | 0, _ => none
  | rounds + 1, iter =>
    if hashmapEnd m ≤ iter then some ([], [])
    else do
      let (next, reads) ← hashmapNext m behind fuel iter
      let (later, more) ← visits m behind fuel rounds next
      return (iter :: later, reads ++ more)

def occupiedBuckets (m : Hashmap ε) : List Nat :=
  (List.range m.buckets).filter fun i => match m.data i with
    | .full _ => true
    | .empty | .tombstone => false

def IteratesInside (m : Hashmap ε) (behind : Nat → Bucket ε) : Prop :=
  ∃ fuel rounds iter reads more, hashmapBegin m behind fuel = some (iter, reads) ∧
    visits m behind fuel rounds iter = some (occupiedBuckets m, more) ∧ ∀ i ∈ reads ++ more, i < m.buckets

def Contains (m : Hashmap ε) (value : ε) : Prop := ∃ i < m.buckets, m.data i = .full value

inductive ValueCall where
  | insert (value : Pointer)
  | delete (value : Pointer)

def ValueCall.perform (m : Hashmap Pointer) : ValueCall → Except Fault (Hashmap Pointer)
  | .insert value => hashmapInsertValue m value
  | .delete value => hashmapDeleteValue m value

def pointerMaps : System (Hashmap Pointer) ValueCall where
  initial m := m = hashmapInit ptrValueHash ptrValueCmp false
  step m call m' := call.perform m = .ok m'

def DeletesPresent (m : Hashmap Pointer) : ValueCall → Prop
  | .insert _ => True
  | .delete value => m.buckets = 0 ∨ Contains m value

structure EntryKeys (hash : HashmapEntry κ ν → Nat)
    (cmp : Bucket (HashmapEntry κ ν) → HashmapEntry κ ν → Except Fault Int) : Prop where
  equal : EqualKeys hash cmp
  tombstone : ∀ b, cmp .tombstone b = .error .badEntry

inductive MapCall (κ ν : Type) where
  | insert (key : κ) (value : ν)
  | delete (key : κ)
  | get (key : κ)

def MapCall.perform (null : ν) (addr : Nat) (m : Hashmap (HashmapEntry κ ν)) :
    MapCall κ ν → Except Fault (Hashmap (HashmapEntry κ ν))
  | .insert key value => hashmapInsert m addr key value
  | .delete key => hashmapDelete null m key
  | .get key => do
      let _ ← hashmapGet null m key
      return m

def performAll (null : ν) : Hashmap (HashmapEntry κ ν) → Nat → List (MapCall κ ν) →
    Except Fault (Hashmap (HashmapEntry κ ν))
  | m, _, [] => .ok m
  | m, addr, call :: calls => do performAll null (← call.perform null addr m) (addr + 1) calls

def insertedEntries : Nat → List (MapCall κ ν) → List (HashmapEntry κ ν)
  | _, [] => []
  | addr, .insert key value :: calls => ⟨addr, key, value⟩ :: insertedEntries (addr + 1) calls
  | addr, .delete _ :: calls | addr, .get _ :: calls => insertedEntries (addr + 1) calls

/-- The calls only compare entries, and in the end every inserted entry has been freed once, and nothing else has. -/
def FreesOnce (null : ν) (m : Hashmap (HashmapEntry κ ν)) (calls : List (MapCall κ ν)) : Prop :=
  ∃ m', performAll null m 0 calls = .ok m' ∧ (hashmapFree m').freed.Perm ((insertedEntries 0 calls).map .full)

def Clear (null : ν) (m : Hashmap (HashmapEntry κ ν)) (key : κ) : Prop :=
  ∃ d < m.buckets, (∀ d' < d, ∃ e, m.data ((m.hash ⟨0, key, null⟩ + d') % m.buckets) = .full e ∧ e.key ≠ key) ∧
    (m.data ((m.hash ⟨0, key, null⟩ + d) % m.buckets) = .empty ∨
      ∃ e, m.data ((m.hash ⟨0, key, null⟩ + d) % m.buckets) = .full e ∧ e.key = key)

def Allowed (null : ν) (m : Hashmap (HashmapEntry κ ν)) : MapCall κ ν → Prop
  | .insert key _ => Loaded m ∨ Clear null m key
  | .delete key => m.buckets = 0 ∨ Clear null m key ∧ ∀ i < m.buckets, ∀ e, m.data i = .full e → e.key ≠ key
  | .get key => m.buckets = 0 ∨ Clear null m key

def Careful (null : ν) : Hashmap (HashmapEntry κ ν) → Nat → List (MapCall κ ν) → Prop
  | m, _, [] => ∀ i < m.buckets, m.data i ≠ .empty
  | m, addr, call :: calls => Allowed null m call ∧
      ∀ m', call.perform null addr m = .ok m' → Careful null m' (addr + 1) calls

end Petix.Spec.Container
