import Petix.Kernel.Physical
import Mathlib.Data.Finset.Card

namespace Petix.Spec.Physical
open Kernel Kernel.Physical

def Apart (base : Nat) (s : State) : Prop :=
  ∀ p ∈ s.pages.allocated, ∀ a, a / Mem.pageSize = p → ¬ (base ≤ a ∧ a < s.breakptr)

def Budget (most top : Nat) (s : State) : Action → Prop
  | .pages .allocPage => s.pages.allocated.card < most ∧ s.breakptr ≤ top
  | .pages (.freePage _) => True
  | .heap call => ∀ c, s.heap.call call = some c → c.heap.breakptr ≤ top

instance (most top : Nat) (s : State) : (action : Action) → Decidable (Budget most top s action)
  | .pages .allocPage => inferInstanceAs (Decidable (_ ∧ _))
  | .pages (.freePage _) => isTrue trivial
  | .heap call => match result : s.heap.call call with
      | none => isTrue fun c here => by rw [result] at here; cases here
      | some c => decidable_of_iff (c.heap.breakptr ≤ top)
          ⟨fun below c' here => by rw [result] at here; cases here; exact below, fun all => all c result⟩

def lowestPage (base length most : Nat) : Nat :=
  base / Mem.pageSize + 32 * (Mem.ceilDiv (length / Mem.pageSize) 32 - Mem.ceilDiv most 32)

end Petix.Spec.Physical
