import Petix.Library.ByteMemory
import Petix.Library.Transition
import Petix.Library.Word

/-!
# The kernel heap (`kernel/kmalloc.c`)

The heap is the byte memory itself: block headers are read from and written to the bytes at their
addresses, next to the payloads. Pointers are numbers and `NULL` is `0`.
-/

namespace Petix.Kernel.Kmalloc
open Library

structure Heap where
  mem : Memory
  base : Nat
  breakptr : Nat

structure Block where
  prev : Nat
  next : Nat
  posMag : Nat
  len : Nat
  used : Nat

def sizeofBlock : Nat := 24
def mallocMag : Nat := 0x8a05e5ad623cc4e
def minSplitSize : Nat := 128

def align8 (i : Nat) : Nat := (8 - i % 8) % 8

def signExtend (p : Nat) : Nat := if p < 2 ^ 31 then p else p + (2 ^ 64 - 2 ^ 32)

namespace Heap

def block (h : Heap) (b : Nat) : Block where
  prev := h.mem.read 4 b
  next := h.mem.read 4 (b + 4)
  posMag := h.mem.read 8 (b + 8)
  len := h.mem.read 4 (b + 16)
  used := h.mem.read 4 (b + 20)

def setPrev (h : Heap) (b v : Nat) : Heap := { h with mem := h.mem.write 4 b v }
def setNext (h : Heap) (b v : Nat) : Heap := { h with mem := h.mem.write 4 (b + 4) v }
def setPosMag (h : Heap) (b v : Nat) : Heap := { h with mem := h.mem.write 8 (b + 8) v }
def setLen (h : Heap) (b v : Nat) : Heap := { h with mem := h.mem.write 4 (b + 16) v }
def setUsed (h : Heap) (b v : Nat) : Heap := { h with mem := h.mem.write 4 (b + 20) v }
def setBase (h : Heap) (b : Nat) : Heap := { h with base := b }

def initBlock (h : Heap) (b prev next len used : Nat) : Heap :=
  let h := h.setPrev b prev
  let h := h.setNext b next
  let h := h.setPosMag b (mallocMag ^^^ signExtend b)
  let h := h.setLen b len
  h.setUsed b used

def ksbrk (h : Heap) (increment : Nat) : Heap := { h with breakptr := h.breakptr + increment }

def pushBlock (h : Heap) (size : Nat) : Nat × Heap :=
  let start := h.breakptr
  let align := align8 start
  let h := h.ksbrk (align + sizeofBlock + size)
  let newBlock := start + align
  let h := if h.base ≠ 0 then h.setNext h.base newBlock else h
  let h := h.initBlock newBlock h.base 0 size 1
  (newBlock, h.setBase newBlock)

def shrinkBlock (h : Heap) (mblock size : Nat) : Bool × Heap :=
  if minSplitSize ≤ sub32 (h.block mblock).len size then
    let blockNew := mblock + sizeofBlock + size
    let blockNew := blockNew + align8 blockNew
    let h := h.initBlock blockNew mblock (h.block mblock).next
      (sub32 (mblock + (h.block mblock).len) blockNew) 0
    let h := h.setBase (if mblock = h.base then blockNew else h.base)
    let h := if (h.block mblock).next ≠ 0 then h.setPrev (h.block mblock).next blockNew else h
    let h := h.setNext mblock blockNew
    (true, h.setLen mblock size)
  else (false, h)

def getFreeBlockFrom (h : Heap) (size : Nat) : (fuel : Nat) → (curr : Nat) → Option (Nat × Heap)
  | 0, _ => none
  | fuel + 1, curr =>
    if curr = 0 then some (0, h)
    else if (h.block curr).used = 0 ∧ size ≤ (h.block curr).len then
      some (curr, (h.shrinkBlock curr size).2.setUsed curr 1)
    else getFreeBlockFrom h size fuel (h.block curr).prev

def getFreeBlock (h : Heap) (size : Nat) : Option (Nat × Heap) :=
  h.getFreeBlockFrom size (2 ^ 32) h.base

def blockMergeNext (h : Heap) (mblock : Nat) : Heap :=
  let next := (h.block mblock).next
  let h := h.setLen mblock (sub32 next mblock + (h.block next).len)
  let h := h.setBase (if (h.block mblock).next = h.base then mblock else h.base)
  let h := h.setNext mblock (h.block (h.block mblock).next).next
  if (h.block mblock).next ≠ 0 then h.setPrev (h.block mblock).next mblock else h

def isMemBlock (h : Heap) (mblock : Nat) : Bool :=
  signExtend mblock ^^^ (h.block mblock).posMag == mallocMag

def kmalloc (h : Heap) (size : Nat) : Option (Nat × Heap) :=
  if size = 0 then some (0, h)
  else if h.base = 0 then
    let (mblock, h) := h.pushBlock size
    some (mblock + sizeofBlock, h)
  else do
    let (mblock, h) ← h.getFreeBlock size
    let (mblock, h) := if mblock = 0 then h.pushBlock size else (mblock, h)
    some (mblock + sizeofBlock, h)

def kfree (h : Heap) (ptr : Nat) : Heap :=
  if ptr = 0 then h
  else
    let mblock := ptr - sizeofBlock
    if h.isMemBlock mblock then
      let h := h.setUsed mblock 0
      let next := (h.block mblock).next
      let h := if next ≠ 0 ∧ (h.block next).used = 0 then h.blockMergeNext mblock else h
      let prev := (h.block mblock).prev
      if prev ≠ 0 ∧ (h.block prev).used = 0 then h.blockMergeNext prev else h
    else h

def krealloc (h : Heap) (ptr size : Nat) : Option (Nat × Heap) :=
  let mblock := ptr - sizeofBlock
  let b := h.block mblock
  if ptr = 0 then h.kmalloc size
  else if ¬ h.isMemBlock mblock then some (0, h)
  else if size < b.len then some (ptr, (h.shrinkBlock mblock size).2)
  else if b.next = 0 ∧ mblock = h.base then
    some (ptr, (h.ksbrk (size - b.len)).setLen mblock size)
  else if (h.block b.next).used = 0 ∧ size ≤ (sub32 b.next mblock + (h.block b.next).len) % 2 ^ 32 then
    some (ptr, h.blockMergeNext mblock)
  else do
    let (newPtr, h) ← h.kmalloc size
    let h := { h with mem := h.mem.copy newPtr ptr (h.block mblock).len }
    some (newPtr, h.kfree ptr)

end Heap

def strlenFrom (m : Memory) : (fuel : Nat) → (s : Nat) → Option Nat
  | 0, _ => none
  | fuel + 1, s => if m s = 0 then some 0 else (strlenFrom m fuel (s + 1)).map (· + 1)

def strlen (m : Memory) (s : Nat) : Option Nat := strlenFrom m (2 ^ 32) s

structure Memcpy where
  target : Nat
  source : Nat
  count : Nat

def Memcpy.run (call : Memcpy) (h : Heap) : Heap :=
  { h with mem := h.mem.copy call.target call.source call.count }

def Heap.kstrdupSync (h : Heap) (str : Nat) : Option (Memcpy × Heap) := do
  let len ← strlen h.mem str
  let (copy, h) ← h.kmalloc len
  some (⟨copy, str, len + 1⟩, h)

structure Client where
  heap : Heap
  live : List (Nat × Nat)

inductive Call where
  | kmalloc (size : Nat)
  | krealloc (ptr size : Nat)
  | kfree (ptr : Nat)
  | store (ptr offset : Nat) (value : Byte)

/-- Calls hand back `NULL` or pointers that are held, and stores stay inside their allocation. -/
def Call.Legal (c : Client) : Call → Prop
  | .kmalloc size => size < 2 ^ 32
  | .krealloc ptr size => (ptr = 0 ∨ ptr ∈ c.live.map Prod.fst) ∧ size < 2 ^ 32
  | .kfree ptr => ptr = 0 ∨ ptr ∈ c.live.map Prod.fst
  | .store ptr offset _ => ∃ e ∈ c.live, e.1 = ptr ∧ offset < e.2

instance (c : Client) : (call : Call) → Decidable (call.Legal c)
  | .kmalloc _ => inferInstanceAs (Decidable (_ < _))
  | .krealloc _ _ => inferInstanceAs (Decidable ((_ ∨ _) ∧ _ < _))
  | .kfree _ => inferInstanceAs (Decidable (_ ∨ _))
  | .store _ _ _ => inferInstanceAs (Decidable (∃ e ∈ c.live, _ ∧ _ < _))

def addLive (live : List (Nat × Nat)) (ptr size : Nat) : List (Nat × Nat) :=
  if ptr = 0 then live else (ptr, size) :: live

def dropLive (live : List (Nat × Nat)) (ptr : Nat) : List (Nat × Nat) :=
  live.filter fun entry => entry.1 ≠ ptr

def Client.call (c : Client) : Call → Option Client
  | .kmalloc size => do
      let (ptr, heap) ← c.heap.kmalloc size
      some ⟨heap, addLive c.live ptr size⟩
  | .krealloc ptr size => do
      let (newPtr, heap) ← c.heap.krealloc ptr size
      some ⟨heap, addLive (dropLive c.live ptr) newPtr size⟩
  | .kfree ptr => some ⟨c.heap.kfree ptr, dropLive c.live ptr⟩
  | .store ptr offset value =>
    some { c with heap := { c.heap with mem := Function.update c.heap.mem (ptr + offset) value } }

def clients : System Client Call where
  initial c := c.heap.base = 0 ∧ c.live = [] ∧ 0 < c.heap.breakptr ∧ c.heap.breakptr < 2 ^ 32
  step c call c' := call.Legal c ∧ c.call call = some c' ∧ c'.heap.breakptr < 2 ^ 32

def Client.next (c : Client) (call : Call) : Option Client :=
  if call.Legal c then (c.call call).filter fun c' => c'.heap.breakptr < 2 ^ 32 else none

theorem Client.next_sound (c : Client) (call : Call) (c' : Client) (computed : c.next call = some c') :
    clients.step c call c' := by
  unfold Client.next at computed
  split_ifs at computed with legal
  obtain ⟨called, fits⟩ := Option.filter_eq_some_iff.mp computed
  exact ⟨legal, called, by simpa using fits⟩

end Petix.Kernel.Kmalloc
