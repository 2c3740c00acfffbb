import Petix.Kernel.Threads

namespace Petix.Spec.Threads
open Kernel.Proc Kernel.Threads

variable (m : Machine)

def UserMode : Prop := m.code m.current = some []

def upcoming : Option Instr := (m.code m.current).bind List.head?

def forking : Option Slot :=
  match upcoming m with
  | some (.fork new) => some new
  | _ => none

def Orderly : Label → Prop
  | .run => (upcoming m = some .allocProc → ∃ p, (m.k.ptable p).rs = .noproc) ∧ (upcoming m = some .pick → m.depth = 1)
  | _ => True

def HasMemlock (p : Slot) : Prop :=
  (m.locks memlock).locked = true ∧ (m.locks memlock).global = false ∧ pidOff (m.locks memlock).heldBy = p

/-- A heap call begins under `memlock`, or while no process in a heap call has `memlock`. Only the timer interrupts a
heap call, and only one under `memlock`. A process in a heap call has not lost its entry to a new process. -/
def Disciplined : Label → Prop
  | .syscall _ => True
  | .run => (upcoming m = some .enter → HasMemlock m m.current ∨ ∀ p ∈ m.heap, ¬HasMemlock m p) ∧
      (forking m).all (· ∉ m.heap)
  | .timer => m.current ∈ m.heap → HasMemlock m m.current
  | .interrupt _ => m.current ∉ m.heap

instance : (label : Label) → Decidable (Orderly m label)
  | .run => inferInstanceAs (Decidable (_ ∧ _))
  | .syscall _ | .timer | .interrupt _ => .isTrue trivial

instance (p : Slot) : Decidable (HasMemlock m p) := inferInstanceAs (Decidable (_ ∧ _ ∧ _))

instance : (label : Label) → Decidable (Disciplined m label)
  | .syscall _ => .isTrue trivial
  | .run => inferInstanceAs (Decidable (_ ∧ _))
  | .timer => inferInstanceAs (Decidable (_ → _))
  | .interrupt _ => inferInstanceAs (Decidable (¬_))

end Petix.Spec.Threads
