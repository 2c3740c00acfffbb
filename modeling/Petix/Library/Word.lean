import Mathlib.Algebra.Order.Ring.Int

namespace Petix.Library

instance neZero1024 : NeZero 1024 := ⟨by decide⟩

def sub32 (a b : Nat) : Nat := (a + 2 ^ 32 - b) % 2 ^ 32

theorem sub32_eq {a b : Nat} (le : b ≤ a) (bound : a < 2 ^ 32) : sub32 a b = a - b := by
  unfold sub32
  omega

def signed32 (x : Int) : Int := (x + 2 ^ 31) % 2 ^ 32 - 2 ^ 31

theorem signed32_eq {n : Nat} (small : n < 2 ^ 31) : signed32 n = n := by
  rw [signed32]
  omega

end Petix.Library
