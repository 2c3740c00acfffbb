import Mathlib.Data.Finset.Basic
import Petix.Library.Word
import Petix.Library.Transition

/-!
# Page frames (`kernel/mem.c`)

A failed `kassert` halts the kernel and a read past the end of the bitmap is undefined, so both end
a run. The free stack is the list `free_stack[0..free_stack_top)`, last pushed entry first.
-/

namespace Petix.Kernel.Mem
open Library

inductive Halt where
  | poppedAllocated
  | frameZero
  | doubleFree
  | outOfBounds (index : Nat)
  | endless
  deriving DecidableEq

structure Frames where
  memBase : Nat
  nframes : Nat
  frames : List (BitVec 32)
  freeStack : List Nat

def pageSize : Nat := 4096
def freeStackSize : Nat := 128

def kassert (test : Bool) (halt : Halt) : Except Halt Unit := if test then .ok () else .error halt

def word (array : List (BitVec 32)) (i : Nat) : Except Halt (BitVec 32) :=
  match array[i]? with
  | some w => .ok w
  | none => .error (.outOfBounds i)

def ceilDiv (x y : Nat) : Nat := (x + y - 1) / y

def memInit (base length : Nat) : Frames where
  memBase := base
  nframes := length / pageSize
  frames := List.replicate (ceilDiv (length / pageSize) 32) 0#32
  freeStack := []

def getBit (array : List (BitVec 32)) (i : Nat) : Except Halt Bool := do
  let w ← word array (i / 32)
  return (w &&& (1#32 <<< (i % 32))) != 0#32

def setBit (array : List (BitVec 32)) (i : Nat) (val : Bool) : Except Halt (List (BitVec 32)) := do
  let w ← word array (i / 32)
  if val then return array.set (i / 32) (w ||| (1#32 <<< (i % 32)))
  else return array.set (i / 32) (w &&& ~~~(1#32 <<< (i % 32)))

/-- The `for` loop of `alloc_page`. Its test `i >= 0` holds for every unsigned `i`, so after word 0 the
index wraps around; fuel for every value of `i` is enough to tell whether the loop ends. -/
def findWord (array : List (BitVec 32)) : (fuel : Nat) → (i : Nat) → Except Halt (Nat × BitVec 32)
  | 0, _ => .error .endless
  | fuel + 1, i => do
      let w ← word array i
      if w ≠ BitVec.allOnes 32 then return (i, w)
      else findWord array fuel (sub32 i 1)

def allocPage (s : Frames) : Except Halt (Nat × Frames) :=
  match s.freeStack with
  | frame :: rest => do
      let allocated ← getBit s.frames (sub32 frame (s.memBase / pageSize))
      kassert (!allocated) .poppedAllocated
      let frames ← setBit s.frames (sub32 frame (s.memBase / pageSize)) true
      kassert (frame != 0) .frameZero
      return (frame, { s with frames := frames, freeStack := rest })
  | [] => do
      let (i, w) ← findWord s.frames (2 ^ 32) (sub32 s.nframes 1 / 32)
      let off := i * 32
      let bit := (~~~w).ctz.toNat
      let frames ← setBit s.frames (off + bit) true
      let frame := off + bit + s.memBase / pageSize
      kassert (frame != 0) .frameZero
      return (frame, { s with frames := frames })

def freePage (s : Frames) (page : Nat) : Except Halt Frames :=
  if page = 0 then .ok s
  else do
    let allocated ← getBit s.frames (sub32 page (s.memBase / pageSize))
    kassert allocated .doubleFree
    let freeStack := if s.freeStack.length < freeStackSize then page :: s.freeStack else s.freeStack
    let frames ← setBit s.frames (sub32 page (s.memBase / pageSize)) false
    return { s with frames := frames, freeStack := freeStack }

structure Client where
  mem : Frames
  allocated : Finset Nat

inductive Call where
  | allocPage
  | freePage (page : Fin (2 ^ 32))

def Client.next (c : Client) : Call → Option Client
  | .allocPage => match allocPage c.mem with
      | .ok (page, mem) => some ⟨mem, insert page c.allocated⟩
      | .error _ => none
  | .freePage page => match freePage c.mem page with
      | .ok mem => some ⟨mem, c.allocated.erase page.val⟩
      | .error _ => none

def clients (base length : Nat) : System Client Call where
  initial c := c = ⟨memInit base length, ∅⟩
  step c call c' := c.next call = some c'

end Petix.Kernel.Mem
