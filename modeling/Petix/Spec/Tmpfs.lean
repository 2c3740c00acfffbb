import Petix.Kernel.Tmpfs
import Petix.Library.Paged

namespace Petix.Spec.Tmpfs
open Function Library Kernel.Vfs Kernel.Tmpfs
open Kernel.Container (Str)
open Kernel.Paging (Allocator Frame)

variable {σ φ : Type}

def Supplies (A : Allocator σ) : (count : Nat) → σ → Prop
  | 0, _ => True
  | count + 1, frames => ∃ page frames', A.allocPage frames = some (page, frames') ∧ Supplies A count frames'

def Fresh (heap : Heap) (s : Tmpfs σ φ) : Prop := ∀ k, s.allocations ≤ k → s.nodes (heap.address k) = none

structure Unused (s : Tmpfs σ φ) : Prop where
  root : s.privateData = none
  allocations : s.allocations = 0
  nodes : ∀ addr, s.nodes addr = none

def opened (s : Tmpfs σ φ) (addr : Nat) (f : File φ) : Option (File φ) :=
  (s.nodes addr).map fun node => (fsOpen tmpOpen node.inode f 0).2

structure Request where
  buf : Buffer
  n : Nat
  word : n < 2 ^ 32

def Request.bytes (r : Request) : List Byte := (List.range r.n).map r.buf

def writeAll (A : Allocator σ) : List Request → File φ → Tmpfs σ φ → Except Fault (File φ × Tmpfs σ φ)
  | [], f, s => .ok (f, s)
  | r :: writes, f, s => do
      let (_, f, s) ← tmpWrite A f r.buf r.n s
      writeAll A writes f s

def readAll (s : Tmpfs σ φ) : List Request → File φ → Except Fault (List (Int × Buffer) × File φ)
  | [], f => .ok ([], f)
  | r :: reads, f => do
      let (ret, f, buf) ← tmpRead f r.buf r.n s
      let (results, f) ← readAll s reads f
      return ((ret, buf) :: results, f)

def received (result : Int × Buffer) : List Byte := (List.range (result.1 % 2 ^ 32).toNat).map result.2

def Delivers : (rest : List Byte) → List Request → List (Int × Buffer) → Prop
  | _, [], results => results = []
  | _, _ :: _, [] => False
  | rest, r :: reads, result :: results =>
    result.1 = signed32 (min rest.length r.n : Nat) ∧ received result = rest.take r.n ∧
      Delivers (rest.drop r.n) reads results

def fileSize (s : Tmpfs σ φ) (addr : Nat) : Nat := ((s.nodes addr).map (·.inode.size)).getD 0

def filePages (s : Tmpfs σ φ) (addr : Nat) : List Frame :=
  match s.nodes addr with
  | some ⟨_, .pages list⟩ => list.items
  | _ => []

structure Written where
  offset : Nat
  bytes : List Byte

structure Shared (σ φ : Type) where
  fs : Tmpfs σ φ
  handle : Nat → Option (File φ)
  log : List Written

def largest : List Written → Nat
  | [] => 0
  | w :: log => max (w.offset + w.bytes.length) (largest log)

def latest : List Written → (position : Nat) → Option Byte
  | [], _ => none
  | w :: log, i =>
    if w.offset ≤ i ∧ i < w.offset + w.bytes.length then w.bytes[i - w.offset]? else latest log i

inductive ShareCall (φ : Type) where
  | opens (h : Nat) (file : File φ)
  | writes (h : Nat) (r : Request)
  | reads (h : Nat) (r : Request)

inductive ShareStep (A : Allocator σ) (addr : Nat) : Shared σ φ → ShareCall φ → Shared σ φ → Prop
  | opens {s h file f} (free : s.handle h = none) (run : opened s.fs addr file = some f) :
      ShareStep A addr s (.opens h file) { s with handle := update s.handle h (some f) }
  | writes {s h f ret f' fs'} {r : Request} (here : s.handle h = some f)
      (run : tmpWrite A f r.buf r.n s.fs = .ok (ret, f', fs')) : ShareStep A addr s (.writes h r)
        ⟨fs', update s.handle h (some f'), ⟨f.offset.toNat, r.bytes⟩ :: s.log⟩
  | reads {s h f ret f' buf'} {r : Request} (here : s.handle h = some f)
      (run : tmpRead f r.buf r.n s.fs = .ok (ret, f', buf')) :
      ShareStep A addr s (.reads h r) { s with handle := update s.handle h (some f') }

def Created (heap : Heap) (addr : Nat) (s : Tmpfs σ φ) : Prop :=
  ∃ before dir name, Fresh heap before ∧ addr = heap.address before.allocations ∧
    tmpCreat heap before dir name = .ok (0, s)

def shared (A : Allocator σ) (heap : Heap) (addr : Nat) : System (Shared σ φ) (ShareCall φ) where
  initial s := Created heap addr s.fs ∧ s.handle = (fun _ => none) ∧ s.log = []
  step := ShareStep A addr

def UpToDate (addr : Nat) (s : Shared σ φ) : ShareCall φ → Prop
  | .opens _ _ => True
  | .writes h r => ∀ f, s.handle h = some f → f.size = fileSize s.fs addr ∧ (fileSize s.fs addr : Int) ≤ f.offset + r.n
  | .reads h _ => ∀ f, s.handle h = some f → f.size = fileSize s.fs addr

def SeesWrites (s : Shared σ φ) (f : File φ) (r : Request) : Prop :=
  let len := min (largest s.log - f.offset.toNat) r.n
  ∃ f' buf', tmpRead f r.buf r.n s.fs = .ok (signed32 len, f', buf') ∧
    ∀ i < len, latest s.log (f.offset.toNat + i) = some (buf' i)

def liveAllocations (heap : Heap) (s : Tmpfs σ φ) : Set Nat := {addr | ∃ k < s.allocations, heap.address k = addr}

def RefusesCleanly (heap : Heap) (add : Tmpfs σ φ → Inode φ → Str → Except Fault (Int × Tmpfs σ φ)) (s : Tmpfs σ φ)
    (dir : Inode φ) (name : Str) : Prop :=
  ∃ s', add s dir name = .ok (-EEXIST, s') ∧ s'.nodes dir.inodeId = s.nodes dir.inodeId ∧
    liveAllocations heap s' = liveAllocations heap s

def fileByte (s : Tmpfs σ φ) (addr : Nat) (i : Int) : Option Byte :=
  if i < 0 then none else Paged.cell pageSize (filePages s addr) s.mem i.toNat

def ReadsExactly (f : File φ) (n : Nat) (s : Tmpfs σ φ) : Prop :=
  ∀ buf, ∃ ret f' buf', tmpRead f buf n s = .ok (ret, f', buf') ∧ ∀ i : Nat,
    if i < min (f.size - f.offset) n then fileByte s f.inode.inodeId (f.offset + i) = some (buf' i)
    else buf' i = buf i

def WritesOnly (A : Allocator σ) (f : File φ) (n : Nat) (s : Tmpfs σ φ) : Prop :=
  ∀ buf, ∃ ret f' s', tmpWrite A f buf n s = .ok (ret, f', s') ∧
    (∀ i : Nat, i < f.size → ¬(f.offset ≤ i ∧ i < f.offset + n) →
      fileByte s' f.inode.inodeId i = fileByte s f.inode.inodeId i) ∧
    ∀ buf', (∀ i < n, buf' i = buf i) → tmpWrite A f buf' n s = .ok (ret, f', s')

def AppendsPages (A : Allocator σ) (f : File φ) (n : Nat) (s : Tmpfs σ φ) : Prop :=
  let more := ceilPages (f.offset + n) - ceilPages f.size
  Supplies A more s.frames → ∀ buf, ∃ ret f' s' new, tmpWrite A f buf n s = .ok (ret, f', s') ∧
    filePages s' f.inode.inodeId = filePages s f.inode.inodeId ++ new ∧ new.length = more

end Petix.Spec.Tmpfs
