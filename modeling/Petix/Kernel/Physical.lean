import Petix.Kernel.Kmalloc
import Petix.Kernel.Mem

/-!
# The memory that the heap and the page frames share (`kernel/mem.c`)

The heap grows from `breakptr` upwards and the frames are numbered from `mem_base` on. Neither looks at the other.
-/

namespace Petix.Kernel.Physical
open Library

structure State where
  pages : Mem.Client
  heap : Kmalloc.Client

inductive Action where
  | pages (call : Mem.Call)
  | heap (call : Kmalloc.Call)

def State.breakptr (s : State) : Nat := s.heap.heap.breakptr

def sizeofFrames (length : Nat) : Nat := 4 * Mem.ceilDiv (length / Mem.pageSize) 32

def memory (base initbrk length : Nat) : System State Action where
  initial s := s.pages = ⟨Mem.memInit base length, ∅⟩ ∧ s.breakptr = initbrk + sizeofFrames length ∧
    Kmalloc.clients.initial s.heap
  step s action s' := match action with
    | .pages call => (Mem.clients base length).step s.pages call s'.pages ∧ s'.heap = s.heap
    | .heap call => Kmalloc.clients.step s.heap call s'.heap ∧ s'.pages = s.pages

def State.next (s : State) : Action → Option State
  | .pages call => (s.pages.next call).map fun pages => { s with pages := pages }
  | .heap call => (s.heap.next call).map fun heap => { s with heap := heap }

theorem State.next_sound (base initbrk length : Nat) (s : State) (action : Action) (s' : State)
    (computed : s.next action = some s') : (memory base initbrk length).step s action s' := by
  cases action with
  | pages call =>
    obtain ⟨pages, called, rfl⟩ := Option.map_eq_some_iff.mp computed
    exact ⟨called, rfl⟩
  | heap call =>
    obtain ⟨heap, called, rfl⟩ := Option.map_eq_some_iff.mp computed
    exact ⟨Kmalloc.Client.next_sound _ _ _ called, rfl⟩

end Petix.Kernel.Physical
